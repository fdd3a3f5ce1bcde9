import Mathlib.Data.List.Induction
import Manifest.Proofs.Watching.Passes
import Manifest.Watch.Loop

/-! # No change is lost

What happens to a watch loop comes in any order: notices arrive, time goes by, and the loop makes its
next move, on the disk as it then is. The log of a run tells what each move has done and when.

What matters of the log is whether a relevant notice has been taken since the last pass, and when the
last such one was (`pending`). It is tied to the phase of the loop: an idle loop owes no pass, a
settling one waits until the quiet time behind that notice is over, and a passing one has waited for
all of it (`Keeps`). Every happening keeps this (`keeps_apply`), so that it holds in every run, and
with it what the loop is for (`no_change_lost`). -/

namespace Manifest.Proofs.Watching.Loops

open Manifest.Watcher Manifest.Proofs.Watching.Passes

/-! ### Moves -/

/-- What a loop does in one move on a disk, and the loop behind it. -/
inductive Moves (d : Disk) (l : Loop) : Move → Loop → Prop
  | attempt {result : Except Watcher.Error Pass} {watcher : Watcher}
      (hphase : l.phase = .starting ∨ l.phase = .passing)
      (hlook : l.watcher.look d = (result, watcher)) :
      Moves d l (.attempt result) { l with watcher, phase := l.afterPass result }
  | take {n : Notice} {rest : List Notice} {relevant : Bool}
      (hphase : l.phase = .idle ∨ ∃ deadline, l.phase = .settling deadline)
      (hqueue : l.queue = n :: rest) (hrelevant : n.isRelevant d l.watcher.path = relevant) :
      Moves d l (.take n relevant) { l with queue := rest, phase := l.afterNotice relevant }
  | settle {deadline : Nat} (hphase : l.phase = .settling deadline) (hqueue : l.queue = [])
      (hover : deadline ≤ l.now) : Moves d l .settle { l with phase := .passing }
  | wait (hblocked : l.isBlocked = true) : Moves d l .wait l

/-- Each move of a loop is one of these. -/
theorem moves_step (l : Loop) (d : Disk) : Moves d l (l.step d).2 (l.step d).1 := by
  obtain ⟨w, debounce, now, queue, phase⟩ := l
  cases phase with
  | starting => exact .attempt (.inl rfl) rfl
  | passing => exact .attempt (.inr rfl) rfl
  | ended => exact .wait rfl
  | idle =>
    cases queue with
    | nil => exact .wait rfl
    | cons n rest => exact .take (.inl rfl) rfl rfl
  | settling deadline =>
    cases queue with
    | nil =>
      by_cases hover : deadline ≤ now
      · have hstep : Loop.step ⟨w, debounce, now, [], .settling deadline⟩ d =
            (⟨w, debounce, now, [], .passing⟩, .settle) := if_pos hover
        rw [hstep]
        exact .settle rfl rfl hover
      · have hstep : Loop.step ⟨w, debounce, now, [], .settling deadline⟩ d =
            (⟨w, debounce, now, [], .settling deadline⟩, .wait) := if_neg hover
        rw [hstep]
        exact .wait (by simpa [Loop.isBlocked] using hover)
    | cons n rest => exact .take (.inr ⟨deadline, rfl⟩) rfl rfl

/-! ### Runs and their logs -/

/-- What can happen to a loop. -/
inductive Happening
  | arrive (n : Notice)
  | tick (ms : Nat)
  | move (d : Disk)

/-- What a loop has done in a move, and when. -/
structure Mark where
  time : Nat
  done : Move

/-- The loop behind something that happens. -/
def Happening.apply (l : Loop) : Happening → Loop
  | .arrive n => l.arrive n
  | .tick ms => l.tick ms
  | .move d => (l.step d).1

/-- What a happening adds to the log. -/
def Happening.marks (l : Loop) : Happening → List Mark
  | .arrive _ | .tick _ => []
  | .move d => [⟨l.now, (l.step d).2⟩]

/-- The loop behind all that happens. -/
def run (l : Loop) (hs : List Happening) : Loop := hs.foldl Happening.apply l

/-- What the loop does while all that happens. -/
def log (l : Loop) : List Happening → List Mark
  | [] => []
  | h :: hs => h.marks l ++ log (h.apply l) hs

/-- The notices that arrive. -/
def arrivals (hs : List Happening) : List Notice :=
  hs.filterMap fun
    | .arrive n => some n
    | .tick _ | .move _ => none

/-- The notices that the loop has taken. -/
def taken (past : List Mark) : List Notice :=
  past.filterMap fun m =>
    match m.done with
    | .take n _ => some n
    | .attempt _ | .settle | .wait => none

theorem run_append (l : Loop) (hs hs' : List Happening) : run l (hs ++ hs') = run (run l hs) hs' := by
  rw [run, List.foldl_append]
  rfl

theorem arrivals_append (hs hs' : List Happening) :
    arrivals (hs ++ hs') = arrivals hs ++ arrivals hs' := by
  rw [arrivals, List.filterMap_append]
  rfl

namespace Mark

/-- The loop has begun a pass. -/
def isAttempt (m : Mark) : Bool :=
  match m.done with
  | .attempt _ => true
  | .take _ _ | .settle | .wait => false

/-- The loop has taken a relevant notice. -/
def isRelevant (m : Mark) : Bool :=
  match m.done with
  | .take _ relevant => relevant
  | .attempt _ | .settle | .wait => false

end Mark

/-- A relevant notice has been taken and no pass has begun since. -/
def Unanswered (past : List Mark) : Prop :=
  ∃ front m back, past = front ++ m :: back ∧ m.isRelevant = true ∧ ∀ a ∈ back, a.isAttempt = false

/-- A mark is that of the last relevant notice. -/
def Latest (past : List Mark) (m : Mark) : Prop :=
  ∃ front back, past = front ++ m :: back ∧ m.isRelevant = true ∧ ∀ n ∈ back, n.isRelevant = false

/-! ### The notice that waits for a pass -/

/-- The time of the last relevant notice that no pass has followed, behind one more move. -/
def noted (since? : Option Nat) (m : Mark) : Option Nat :=
  match m.done with
  | .attempt _ => none
  | .take _ relevant => if relevant then some m.time else since?
  | .settle | .wait => since?

/-- The time of the last relevant notice, if no pass has begun since. -/
def pending (past : List Mark) : Option Nat := past.foldl noted none

theorem pending_concat (past : List Mark) (m : Mark) :
    pending (past ++ [m]) = noted (pending past) m := by
  rw [pending, List.foldl_append]
  rfl

theorem noted_of_quiet {m : Mark} (ha : m.isAttempt = false) (hr : m.isRelevant = false)
    (since? : Option Nat) : noted since? m = since? := by
  obtain ⟨time, done⟩ := m
  cases done with
  | attempt result => cases ha
  | take n relevant => cases relevant with
    | false => rfl
    | true => cases hr
  | settle => rfl
  | wait => rfl

theorem noted_of_relevant {m : Mark} (hr : m.isRelevant = true) (since? : Option Nat) :
    noted since? m = some m.time := by
  obtain ⟨time, done⟩ := m
  cases done with
  | take n relevant => cases relevant with
    | false => cases hr
    | true => rfl
  | attempt result => cases hr
  | settle => cases hr
  | wait => cases hr

theorem noted_of_attempt {m : Mark} (ha : m.isAttempt = true) (since? : Option Nat) :
    noted since? m = none := by
  obtain ⟨time, done⟩ := m
  cases done with
  | attempt result => rfl
  | take n relevant => cases ha
  | settle => cases ha
  | wait => cases ha

/-- What is pending is the last relevant notice, with no pass behind it. -/
theorem pending_eq_some {past : List Mark} {since : Nat} (h : pending past = some since) :
    Unanswered past ∧ ∃ m, Latest past m ∧ m.time = since := by
  induction past using List.reverseRecOn with
  | nil => cases h
  | append_singleton past m ih =>
    rw [pending_concat] at h
    cases ha : m.isAttempt with
    | true => rw [noted_of_attempt ha] at h; cases h
    | false =>
      cases hr : m.isRelevant with
      | true =>
        rw [noted_of_relevant hr] at h
        exact ⟨⟨past, m, [], rfl, hr, by simp⟩, m, ⟨past, [], rfl, hr, by simp⟩, Option.some.inj h⟩
      | false =>
        rw [noted_of_quiet ha hr] at h
        obtain ⟨⟨front, u, back, rfl, hu, hback⟩, v, ⟨front', back', hv, hvr, hback'⟩, htime⟩ := ih h
        refine ⟨⟨front, u, back ++ [m], by simp, hu, ?_⟩, v,
          ⟨front', back' ++ [m], by simp [hv], hvr, ?_⟩, htime⟩
        · exact fun a hmem => (List.mem_append.mp hmem).elim (hback a) fun hlast =>
            List.mem_singleton.mp hlast ▸ ha
        · exact fun a hmem => (List.mem_append.mp hmem).elim (hback' a) fun hlast =>
            List.mem_singleton.mp hlast ▸ hr

/-- Where nothing is pending every relevant notice has been followed by a pass. -/
theorem not_unanswered {past : List Mark} (h : pending past = none) : ¬ Unanswered past := by
  rintro ⟨front, m, back, rfl, hr, hback⟩
  have hsome : ∀ (back : List Mark), (∀ a ∈ back, a.isAttempt = false) →
      (pending (front ++ m :: back)).isSome := by
    intro back
    induction back using List.reverseRecOn with
    | nil => intro _; rw [pending_concat, noted_of_relevant hr]; rfl
    | append_singleton back a ih =>
      intro hall
      have ha : a.isAttempt = false := hall a (by simp)
      rw [← List.cons_append, ← List.append_assoc, pending_concat]
      cases har : a.isRelevant with
      | true => rw [noted_of_relevant har]; rfl
      | false => rw [noted_of_quiet ha har]; exact ih fun x hx => hall x (by simp [hx])
  have := hsome back hback
  rw [h] at this
  cases this

/-! ### What every happening keeps -/

/-- What is pending in a phase. -/
def Owes (l : Loop) (since? : Option Nat) : Prop :=
  match l.phase with
  | .starting | .idle | .ended => since? = none
  | .settling deadline => ∃ since, since? = some since ∧ deadline = since + l.debounce
  | .passing => ∃ since, since? = some since ∧ since + l.debounce ≤ l.now

/-- A loop on the file at a path, and the log of what it has done. -/
structure Keeps (path : Path) (debounce : Nat) (past : List Mark) (l : Loop) : Prop where
  path_eq : l.watcher.path = path
  debounce_eq : l.debounce = debounce
  fresh : l.phase = .starting → past = []
  clock : ∀ m ∈ past, m.time ≤ l.now
  ordered : past.Pairwise fun m n => m.time ≤ n.time
  owes : Owes l (pending past)

variable {path : Path} {debounce : Nat} {past : List Mark} {l : Loop}

theorem keeps_start (w : Watcher) (debounce now : Nat) :
    Keeps w.path debounce [] (.start w debounce now) where
  path_eq := rfl
  debounce_eq := rfl
  fresh _ := rfl
  clock := by simp
  ordered := .nil
  owes := rfl

theorem keeps_arrive (h : Keeps path debounce past l) (n : Notice) :
    Keeps path debounce past (l.arrive n) :=
  ⟨h.path_eq, h.debounce_eq, h.fresh, h.clock, h.ordered, h.owes⟩

/-- Time that goes by only helps a quiet time to be over. -/
theorem keeps_tick (h : Keeps path debounce past l) (ms : Nat) :
    Keeps path debounce past (l.tick ms) where
  path_eq := h.path_eq
  debounce_eq := h.debounce_eq
  fresh := h.fresh
  clock m hm := Nat.le_trans (h.clock m hm) (Nat.le_add_right _ _)
  ordered := h.ordered
  owes := by
    have howes := h.owes
    unfold Owes Loop.tick at *
    cases hphase : l.phase with
    | passing =>
      rw [hphase] at howes
      obtain ⟨since, hsince, hover⟩ := howes
      exact ⟨since, hsince, by simp only; omega⟩
    | starting | idle | settling _ | ended => rw [hphase] at howes; exact howes

/-- A move changes what is pending as the phase behind it asks for. -/
theorem owes_of_moves (h : Keeps path debounce past l) {d : Disk} {done : Move} {l' : Loop}
    (hmoves : Moves d l done l') : Owes l' (noted (pending past) ⟨l.now, done⟩) := by
  have howes := h.owes
  cases hmoves with
  | attempt hphase hlook =>
    rename_i result watcher
    unfold Owes Loop.afterPass
    cases result with
    | ok pass => rfl
    | error e => rcases hphase with hphase | hphase <;> simp [hphase, noted]
  | take hphase hqueue hrelevant =>
    rename_i n rest relevant
    unfold Owes Loop.afterNotice
    cases relevant with
    | true => exact ⟨l.now, rfl, rfl⟩
    | false => exact howes
  | settle hphase hqueue hover =>
    rename_i deadline
    unfold Owes at howes ⊢
    rw [hphase] at howes
    obtain ⟨since, hsince, rfl⟩ := howes
    exact ⟨since, hsince, hover⟩
  | wait hblocked => exact howes

/-- What no move changes, and that none goes back in front of the first pass. -/
theorem frame_of_moves {d : Disk} {done : Move} {l' : Loop} (h : Moves d l done l') :
    l'.watcher.path = l.watcher.path ∧ l'.debounce = l.debounce ∧ l'.now = l.now ∧
      l'.phase ≠ .starting := by
  cases h with
  | attempt hphase hlook =>
    rename_i result watcher
    refine ⟨?_, rfl, rfl, ?_⟩
    · rw [← path_look l.watcher d, hlook]
    · cases result with
      | ok pass => simp [Loop.afterPass]
      | error e => rcases hphase with hphase | hphase <;> simp [Loop.afterPass, hphase]
  | take hphase hqueue hrelevant =>
    rename_i n rest relevant
    refine ⟨rfl, rfl, rfl, ?_⟩
    cases relevant with
    | true => simp [Loop.afterNotice]
    | false => rcases hphase with hphase | ⟨deadline, hphase⟩ <;> simp [Loop.afterNotice, hphase]
  | settle hphase hqueue hover => exact ⟨rfl, rfl, rfl, by simp⟩
  | wait hblocked =>
    refine ⟨rfl, rfl, rfl, fun hphase => ?_⟩
    rw [Loop.isBlocked, hphase] at hblocked
    cases hblocked

theorem keeps_move (h : Keeps path debounce past l) (d : Disk) :
    Keeps path debounce (past ++ [⟨l.now, (l.step d).2⟩]) (l.step d).1 := by
  have hmoves := moves_step l d
  obtain ⟨hpath, hdebounce, hnow, hphase⟩ := frame_of_moves hmoves
  refine ⟨hpath.trans h.path_eq, hdebounce.trans h.debounce_eq, fun hs => absurd hs hphase, ?_, ?_, ?_⟩
  · intro m hm
    rw [hnow]
    rcases List.mem_append.mp hm with hm | hm
    · exact h.clock m hm
    · exact (List.mem_singleton.mp hm ▸ Nat.le_refl l.now)
  · refine List.pairwise_append.mpr ⟨h.ordered, List.pairwise_singleton _ _, fun m hm n hn => ?_⟩
    rw [List.mem_singleton.mp hn]
    exact h.clock m hm
  · rw [pending_concat]
    exact owes_of_moves h hmoves

/-- **Whatever happens keeps log and loop tied together.** -/
theorem keeps_apply (h : Keeps path debounce past l) (x : Happening) :
    Keeps path debounce (past ++ x.marks l) (x.apply l) := by
  cases x with
  | arrive n => rw [Happening.marks, List.append_nil]; exact keeps_arrive h n
  | tick ms => rw [Happening.marks, List.append_nil]; exact keeps_tick h ms
  | move d => exact keeps_move h d

theorem keeps_run (h : Keeps path debounce past l) (hs : List Happening) :
    Keeps path debounce (past ++ log l hs) (run l hs) := by
  induction hs generalizing past l with
  | nil => rw [log, List.append_nil]; exact h
  | cons x hs ih =>
    rw [log, ← List.append_assoc]
    exact ih (keeps_apply h x)

/-! ### No notice is lost -/

theorem queue_apply (l : Loop) (x : Happening) :
    l.queue ++ arrivals [x] = taken (x.marks l) ++ (x.apply l).queue := by
  cases x with
  | arrive n => rfl
  | tick ms => exact List.append_nil _
  | move d =>
    have hmoves := moves_step l d
    rw [Happening.marks, Happening.apply]
    generalize l.step d = next at hmoves
    obtain ⟨l', done⟩ := next
    cases hmoves with
    | attempt hphase hlook => exact List.append_nil _
    | take hphase hqueue hrelevant => rw [hqueue]; exact List.append_nil _
    | settle hphase hqueue hover => exact List.append_nil _
    | wait hblocked => exact List.append_nil _

/-- **What has arrived has been taken, in order, or still waits.** -/
theorem arrivals_eq (l : Loop) (hs : List Happening) :
    l.queue ++ arrivals hs = taken (log l hs) ++ (run l hs).queue := by
  induction hs generalizing l with
  | nil => exact List.append_nil _
  | cons x hs ih =>
    rw [show arrivals (x :: hs) = arrivals [x] ++ arrivals hs from arrivals_append [x] hs,
      ← List.append_assoc, queue_apply, List.append_assoc, ih, log, taken, taken, taken,
      List.filterMap_append, List.append_assoc]
    rfl

/-! ### Coming to rest -/

/-- The loop has nothing to do until a notice comes. -/
def Rests (l : Loop) : Prop := l.phase = .ended ∨ l.phase = .idle ∧ l.queue = []

/-- No notice comes, and the disk stays as it is. -/
def Alone (d : Disk) (hs : List Happening) : Prop := ∀ x ∈ hs, x = .move d ∨ ∃ ms, x = .tick ms

/-- How far the loop is from rest: each notice may ask for a quiet time and a pass. -/
def toDo (l : Loop) : Nat :=
  4 * l.queue.length +
    match l.phase with
    | .settling _ => 2
    | .starting | .passing => 1
    | .idle | .ended => 0

theorem toDo_of_moves {d : Disk} {done : Move} {l' : Loop} (h : Moves d l done l') :
    l.isBlocked = true ∨ toDo l' < toDo l := by
  cases h with
  | attempt hphase hlook =>
    rename_i result watcher
    refine .inr (Nat.add_lt_add_left ?_ _)
    cases result with
    | ok pass => rcases hphase with hphase | hphase <;> simp [Loop.afterPass, hphase]
    | error e => rcases hphase with hphase | hphase <;> simp [Loop.afterPass, hphase]
  | take hphase hqueue hrelevant =>
    rename_i n rest relevant
    refine .inr ?_
    simp only [toDo, hqueue, List.length_cons]
    cases relevant with
    | true => simp only [Loop.afterNotice, if_true]; omega
    | false => simp only [Loop.afterNotice, Bool.false_eq_true, if_false]; omega
  | settle hphase hqueue hover =>
    refine .inr (Nat.add_lt_add_left ?_ _)
    simp [hphase]
  | wait hblocked => exact .inl hblocked

/-- A loop that is not at rest needs only time to get nearer to it. -/
theorem rests_or_advances (l : Loop) (d : Disk) :
    Rests l ∨ ∃ hs, Alone d hs ∧ toDo (run l hs) < toDo l := by
  rcases toDo_of_moves (moves_step l d) with hblocked | hless
  · obtain ⟨w, debounce, now, queue, phase⟩ := l
    cases phase with
    | starting => cases hblocked
    | passing => cases hblocked
    | ended => exact .inl (.inl rfl)
    | idle => exact .inl (.inr ⟨rfl, List.isEmpty_iff.mp hblocked⟩)
    | settling deadline =>
      obtain ⟨hempty, -⟩ := (Bool.and_eq_true _ _).mp hblocked
      obtain rfl : queue = [] := List.isEmpty_iff.mp hempty
      have hover : deadline ≤ now + (deadline - now) := by omega
      have hrun : run ⟨w, debounce, now, [], .settling deadline⟩ [.tick (deadline - now), .move d] =
          ⟨w, debounce, now + (deadline - now), [], .passing⟩ :=
        congrArg Prod.fst (if_pos hover)
      refine .inr ⟨[.tick (deadline - now), .move d], by simp [Alone], ?_⟩
      rw [hrun]
      exact (by decide : 1 < 2)
  · exact .inr ⟨[.move d], by simp [Alone], hless⟩

/-- **Left alone a loop comes to rest.** -/
theorem exists_rest (l : Loop) (d : Disk) : ∃ hs, Alone d hs ∧ Rests (run l hs) := by
  induction hn : toDo l using Nat.strongRecOn generalizing l with
  | ind n ih =>
    rcases rests_or_advances l d with hrest | ⟨hs, hquiet, hless⟩
    · exact ⟨[], by simp [Alone], hrest⟩
    · obtain ⟨more, hmore, hrest⟩ := ih _ (hn ▸ hless) (run l hs) rfl
      refine ⟨hs ++ more, fun x hx => ?_, by rwa [run_append]⟩
      exact (List.mem_append.mp hx).elim (hquiet x) (hmore x)

/-! ### What the loop is for -/

theorem unanswered_of_attempt (h : Keeps path debounce past l) {d : Disk}
    {result : Except Watcher.Error Pass} (hdone : (l.step d).2 = .attempt result) :
    past = [] ∨ Unanswered past := by
  have hmoves := moves_step l d
  rw [hdone] at hmoves
  generalize (l.step d).1 = l' at hmoves
  cases hmoves with
  | attempt hphase hlook =>
    rcases hphase with hphase | hphase
    · exact .inl (h.fresh hphase)
    · have howes := h.owes
      rw [Owes, hphase] at howes
      obtain ⟨since, hsince, -⟩ := howes
      exact .inr (pending_eq_some hsince).1

/-- A settling loop waits for the quiet time behind the last relevant notice. -/
theorem exists_latest (h : Keeps path debounce past l) {deadline : Nat}
    (hphase : l.phase = .settling deadline) :
    ∃ m, Latest past m ∧ deadline = m.time + debounce := by
  have howes := h.owes
  rw [Owes, hphase] at howes
  obtain ⟨since, hsince, hdeadline⟩ := howes
  obtain ⟨m, hm, htime⟩ := (pending_eq_some hsince).2
  exact ⟨m, hm, by rw [hdeadline, htime, h.debounce_eq]⟩

/-- No relevant notice is behind the last one. -/
theorem Latest.time_le {m n : Mark} (hm : Latest past m)
    (hordered : past.Pairwise fun m n => m.time ≤ n.time) (hn : n ∈ past)
    (hr : n.isRelevant = true) : n.time ≤ m.time := by
  obtain ⟨front, back, rfl, -, hback⟩ := hm
  rcases List.mem_append.mp hn with hn | hn
  · exact (List.pairwise_append.mp hordered).2.2 n hn m List.mem_cons_self
  · rcases List.mem_cons.mp hn with rfl | hn
    · exact Nat.le_refl _
    · rw [hback n hn] at hr
      cases hr

theorem waited_of_settle (h : Keeps path debounce past l) {d : Disk}
    (hdone : (l.step d).2 = .settle) :
    ∃ m, Latest past m ∧ ∀ n ∈ past, n.isRelevant = true → n.time + debounce ≤ l.now := by
  have hmoves := moves_step l d
  rw [hdone] at hmoves
  generalize (l.step d).1 = l' at hmoves
  cases hmoves with
  | settle hphase hqueue hover =>
    obtain ⟨m, hm, rfl⟩ := exists_latest h hphase
    refine ⟨m, hm, fun n hn hr => ?_⟩
    have := hm.time_le h.ordered hn hr
    omega

theorem step_of_take {d : Disk} {n : Notice} {relevant : Bool}
    (hdone : (l.step d).2 = .take n relevant) :
    n.isRelevant d l.watcher.path = relevant ∧ ∃ rest, l.queue = n :: rest ∧
      (l.step d).1 = { l with queue := rest, phase := l.afterNotice relevant } := by
  have hmoves := moves_step l d
  rw [hdone] at hmoves
  generalize (l.step d).1 = l' at hmoves
  cases hmoves with
  | take hphase hqueue hrelevant => exact ⟨hrelevant, _, hqueue, rfl⟩

/-- **No change is lost.** Take a loop from its start, behind anything that has happened: notices that
have arrived, time that has gone by, and moves on any disks.

* Each notice that has arrived has been taken, in order, or waits in the queue.
* A loop that waits for the next notice has begun a pass since the last relevant one.
* A pass that is begun, other than the first, has a relevant notice behind the pass before.
* A notice that is not relevant is taken out of the queue, and nothing else changes. The quiet time
  always ends by the clock of the last relevant notice.
* When the quiet time is over, it has lasted since every relevant notice.
* Left alone, a loop whose first pass does not fail comes to wait for the next notice. -/
theorem no_change_lost (w : Watcher) (debounce now : Nat) (hs : List Happening) :
    let l := run (.start w debounce now) hs
    let past := log (.start w debounce now) hs
    arrivals hs = taken past ++ l.queue ∧
    (l.phase = .idle → l.queue = [] → ¬ Unanswered past) ∧
    (∀ d result, (l.step d).2 = .attempt result → past = [] ∨ Unanswered past) ∧
    (∀ d n relevant, (l.step d).2 = .take n relevant → n.isRelevant d w.path = relevant ∧
      (relevant = false → ∃ rest, l.queue = n :: rest ∧ (l.step d).1 = { l with queue := rest })) ∧
    (∀ deadline, l.phase = .settling deadline →
      ∃ m, Latest past m ∧ deadline = m.time + debounce) ∧
    (∀ d, (l.step d).2 = .settle → ∃ m, Latest past m ∧
      ∀ n ∈ past, n.isRelevant = true → n.time + debounce ≤ l.now) ∧
    ∀ d, ∃ more, Alone d more ∧ Rests (run l more) := by
  intro l past
  have hkeeps : Keeps w.path debounce past l := keeps_run (keeps_start w debounce now) hs
  refine ⟨arrivals_eq (.start w debounce now) hs, fun hphase _ => ?_,
    fun d result => unanswered_of_attempt hkeeps, fun d n relevant hdone => ?_,
    fun deadline => exists_latest hkeeps, fun d => waited_of_settle hkeeps, exists_rest l⟩
  · have howes := hkeeps.owes
    rw [Owes, hphase] at howes
    exact not_unanswered howes
  · obtain ⟨hrelevant, rest, hqueue, hstep⟩ := step_of_take hdone
    rw [hkeeps.path_eq] at hrelevant
    refine ⟨hrelevant, ?_⟩
    rintro rfl
    exact ⟨rest, hqueue, hstep⟩

/-- The disk with the manifest of two applications. -/
def sampleDisk : Disk := diskWith (.file sampleText.toUTF8)

/-- A loop in front of its first pass over the manifest, with a quiet time of 250 ms. -/
def sampleLoop : Loop := .start (.start manifestPath ⟨none⟩) 250 0

/-- A notice that the manifest has changed. -/
def changed : Notice := .done .modified [manifestPath]

/-- A notice that is not relevant. -/
def noise : Notice := .done .accessed [manifestPath]

/-- The manifest changes behind the first pass, with noise before and while the loop waits. -/
def quietTime : List Happening :=
  [.move sampleDisk, .arrive noise, .arrive changed, .move sampleDisk, .tick 100, .move sampleDisk,
    .arrive noise, .tick 240, .move sampleDisk, .tick 10]

/-- The manifest changes again between the end of the quiet time and the pass. -/
def changedAgain : List Happening := quietTime ++ [.move sampleDisk, .arrive changed]

theorem look_sampleDisk (s : Session) : ∃ pass s', (Watcher.mk manifestPath s).look sampleDisk =
    (.ok pass, ⟨manifestPath, s'⟩) := by
  have hholds : Holds sampleDisk manifestPath sampleText := ⟨_, find_diskWith (by simp)⟩
  exact ⟨_, _, look_of_ok (read_eq_ok_iff.mpr hholds)⟩

theorem run_sampleLoop (hs : List Happening) : ∃ s, run sampleLoop (.move sampleDisk :: hs) =
    run ⟨⟨manifestPath, s⟩, 250, 0, [], .idle⟩ hs := by
  obtain ⟨pass, s, hlook⟩ := look_sampleDisk (.start ⟨none⟩)
  have hstep : (sampleLoop.step sampleDisk).1 = ⟨⟨manifestPath, s⟩, 250, 0, [], .idle⟩ := by
    simp [sampleLoop, Loop.start, Watcher.start, Loop.step, Loop.attempt, hlook, Loop.afterPass]
  exact ⟨s, by rw [run, List.foldl_cons, Happening.apply, hstep]; rfl⟩

/-- The notice that moves the phase on is taken at 100 ms, so the quiet time is over at 350 ms. -/
theorem run_quietTime : ∃ s, run sampleLoop quietTime =
    ⟨⟨manifestPath, s⟩, 250, 350, [], .settling 350⟩ := by
  obtain ⟨s, hrun⟩ := run_sampleLoop quietTime.tail
  have hchanged : changed.isRelevant sampleDisk manifestPath = true :=
    isRelevant_of_mem rfl List.mem_cons_self
  have hnoise : noise.isRelevant sampleDisk manifestPath = false := rfl
  refine ⟨s, hrun.trans ?_⟩
  simp [run, quietTime, Happening.apply, Loop.arrive, Loop.tick, Loop.step, Loop.take,
    Loop.afterNotice, Loop.deadline, hchanged, hnoise]

/-- A notice that comes between the end of the quiet time and the pass is not lost on the pass. -/
theorem no_change_lost_between :
    ¬ Unanswered (log sampleLoop [.move sampleDisk]) ∧
    (∃ m, Latest (log sampleLoop quietTime) m ∧ 350 = m.time + 250) ∧
    (∀ n ∈ log sampleLoop quietTime, n.isRelevant = true → n.time + 250 ≤ 350) ∧
    Unanswered (log sampleLoop changedAgain) ∧
    arrivals changedAgain = taken (log sampleLoop changedAgain) ++ [changed] := by
  obtain ⟨s, hfirst⟩ := run_sampleLoop []
  obtain ⟨t, hquiet⟩ := run_quietTime
  have hsettle : (run sampleLoop quietTime).step sampleDisk =
      (⟨⟨manifestPath, t⟩, 250, 350, [], .passing⟩, .settle) := by
    rw [hquiet]
    simp [Loop.step]
  have hagain : run sampleLoop changedAgain =
      ⟨⟨manifestPath, t⟩, 250, 350, [changed], .passing⟩ := by
    rw [changedAgain, run_append]
    exact congrArg (fun next => (next : Loop × Move).1.arrive changed) hsettle
  obtain ⟨-, hidle, -⟩ :=
    no_change_lost (.start manifestPath ⟨none⟩) 250 0 [.move sampleDisk]
  obtain ⟨-, -, -, -, hdeadline, hover, -⟩ :=
    no_change_lost (.start manifestPath ⟨none⟩) 250 0 quietTime
  obtain ⟨harrived, -, hattempt, -⟩ :=
    no_change_lost (.start manifestPath ⟨none⟩) 250 0 changedAgain
  refine ⟨hidle (congrArg Loop.phase hfirst) (congrArg Loop.queue hfirst),
    hdeadline 350 (congrArg Loop.phase hquiet), ?_, ?_, ?_⟩
  · obtain ⟨-, -, hlast⟩ := hover sampleDisk (congrArg Prod.snd hsettle)
    exact fun n hn hr => Nat.le_trans (hlast n hn hr) (Nat.le_of_eq (congrArg Loop.now hquiet))
  · have hdone : ((run sampleLoop changedAgain).step sampleDisk).2 =
        .attempt ((Watcher.mk manifestPath t).look sampleDisk).1 := by
      rw [hagain]
      rfl
    exact (hattempt sampleDisk _ hdone).resolve_left (List.cons_ne_nil _ _)
  · exact harrived.trans (congrArg (_ ++ Loop.queue ·) hagain)

end Manifest.Proofs.Watching.Loops
