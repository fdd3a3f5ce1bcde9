import Manifest.Watch.Notice

/-! # The watch loop

The system sends notices about the directory of the watched file, which wait in a queue. Behind its
first pass the loop takes them in order. A relevant notice makes it wait until none has come for a
quiet time, and then make a pass; a notice that is not relevant changes nothing. A pass that fails is
left out, and the next relevant notice brings another. Only the first pass must not fail.

The loop moves on by itself (`step`), while notices arrive and time goes by at any moment between. To
take a notice and to set the end of the quiet time is one move: what arrives between the two waits in
the queue either way. The queue is never closed, and whoever is told of the passes goes on to listen. -/

namespace Manifest.Watcher

/-- What the loop does next. -/
inductive Phase
  /-- It makes the first pass. -/
  | starting
  /-- It waits for a notice, for as long as it takes. -/
  | idle
  /-- It waits for a notice until a time, which each relevant notice puts off. -/
  | settling (deadline : Nat)
  /-- It makes another pass. -/
  | passing
  /-- It does nothing any more, since the first pass has failed. -/
  | ended
deriving DecidableEq, Repr

/-- What the loop does in one move. -/
inductive Move
  /-- It makes a pass, which may fail. -/
  | attempt (result : Except Error Pass)
  /-- It takes a notice out of the queue, and sees whether it is relevant. -/
  | take (n : Notice) (relevant : Bool)
  /-- It has waited for the whole of the quiet time. -/
  | settle
  /-- It goes on waiting. -/
  | wait

/-- The state of a loop. Times are in milliseconds. -/
structure Loop where
  watcher : Watcher
  debounce : Nat
  now : Nat
  queue : List Notice
  phase : Phase

namespace Loop

/-- A loop in front of its first pass. -/
def start (w : Watcher) (debounce now : Nat) : Loop := ⟨w, debounce, now, [], .starting⟩

/-- A loop behind its first pass. -/
def resume (w : Watcher) (debounce now : Nat) : Loop := ⟨w, debounce, now, [], .idle⟩

/-- A notice comes in. -/
def arrive (l : Loop) (n : Notice) : Loop := { l with queue := l.queue ++ [n] }

/-- Time goes by. -/
def tick (l : Loop) (ms : Nat) : Loop := { l with now := l.now + ms }

/-- The end of a quiet time that starts now. -/
def deadline (l : Loop) : Nat := l.now + l.debounce

/-- What the loop does next after a pass. -/
def afterPass (l : Loop) : Except Error Pass → Phase
  | .ok _ => .idle
  | .error _ => if l.phase = .starting then .ended else .idle

/-- What the loop does next after a notice that it has taken out of the queue. -/
def afterNotice (l : Loop) (relevant : Bool) : Phase :=
  if relevant then .settling l.deadline else l.phase

/-- Makes a pass. -/
def attempt (l : Loop) (d : Disk) : Loop × Move :=
  let (result, watcher) := l.watcher.look d
  ({ l with watcher, phase := l.afterPass result }, .attempt result)

/-- Takes a notice, with others behind it in the queue. -/
def take (l : Loop) (d : Disk) (n : Notice) (rest : List Notice) : Loop × Move :=
  let relevant := n.isRelevant d l.watcher.path
  ({ l with queue := rest, phase := l.afterNotice relevant }, .take n relevant)

/-- The next move of the loop. In an idle loop with an empty queue, or a settling one before its
deadline, nothing moves. -/
def step (l : Loop) (d : Disk) : Loop × Move :=
  match l.phase, l.queue with
  | .starting, _ | .passing, _ => l.attempt d
  | .idle, [] | .ended, _ => (l, .wait)
  | .settling deadline, [] =>
    if deadline ≤ l.now then ({ l with phase := .passing }, .settle) else (l, .wait)
  | .idle, n :: rest | .settling _, n :: rest => l.take d n rest

/-- The loop has nothing to do until a notice comes or time goes by. -/
def isBlocked (l : Loop) : Bool :=
  match l.phase with
  | .starting | .passing => false
  | .idle => l.queue.isEmpty
  | .settling deadline => l.queue.isEmpty && l.now < deadline
  | .ended => true

end Loop

end Manifest.Watcher
