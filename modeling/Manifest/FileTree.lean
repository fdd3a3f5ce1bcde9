import Manifest.Path

/-! # File trees

Directories, files and links below a root, as plain data. A *place* is the row of names that leads
from the root to something in the tree. Links are not followed here: looking up, putting and taking
away work on the tree as it stands. A tree is *distinct* if no directory in it has two things of one
name; putting something and taking something away keep it so. -/

namespace Manifest

/-- A file, a link to a path, or a directory with its named contents. -/
inductive FileTree
  | file (content : ByteArray)
  | link (target : Path)
  | dir (children : List (Name × FileTree))

namespace FileTree

/-- A directory with nothing in it. -/
def emptyDir : FileTree := dir []

/-- What has a name in a directory. -/
def child? (children : List (Name × FileTree)) (name : Name) : Option FileTree :=
  match children with
  | [] => none
  | (n, t) :: rest => if n = name then some t else child? rest name

/-- What stands at a place. -/
def at? : FileTree → List Name → Option FileTree
  | t, [] => some t
  | dir children, name :: rest => (child? children name).bind (at? · rest)
  | _, _ :: _ => none

/-- The contents of a directory after a name has been given to something. -/
def putChild (children : List (Name × FileTree)) (name : Name) (t : FileTree) :
    List (Name × FileTree) :=
  match children with
  | [] => [(name, t)]
  | (n, u) :: rest => if n = name then (n, t) :: rest else (n, u) :: putChild rest name t

/-- The tree with something put at a place. Nothing is put below what is no directory. -/
def put : FileTree → List Name → FileTree → FileTree
  | _, [], new => new
  | dir children, name :: rest, new =>
    match child? children name, rest with
    | some t, rest => dir (putChild children name (put t rest new))
    | none, [] => dir (putChild children name new)
    | none, _ :: _ => dir children
  | t, _ :: _, _ => t

/-- The tree with what stands at a place taken away. -/
def erase : FileTree → List Name → FileTree
  | t, [] => t
  | dir children, [name] => dir (children.filter (·.1 ≠ name))
  | dir children, name :: rest =>
    match child? children name with
    | some t => dir (putChild children name (erase t rest))
    | none => dir children
  | t, _ :: _ => t

/-- It is a directory. -/
def isDir : FileTree → Bool
  | dir _ => true
  | _ => false

mutual

/-- No directory has two things of one name. -/
def isDistinct : FileTree → Bool
  | dir children => decide (children.map (·.1)).Nodup && allDistinct children
  | _ => true

/-- No directory in any of some things has two things of one name. -/
def allDistinct : List (Name × FileTree) → Bool
  | [] => true
  | (_, t) :: rest => t.isDistinct && allDistinct rest

end

/-! ### Looking up after a change -/

@[simp] theorem at?_nil (t : FileTree) : t.at? [] = some t := by
  cases t <;> rfl

theorem child?_putChild_self (children : List (Name × FileTree)) (name : Name) (t : FileTree) :
    child? (putChild children name t) name = some t := by
  induction children with
  | nil => simp [putChild, child?]
  | cons c rest ih =>
    obtain ⟨n, u⟩ := c
    by_cases h : n = name <;> simp [putChild, child?, h, ih]

theorem child?_putChild_of_ne {children : List (Name × FileTree)} {name other : Name}
    {t : FileTree} (h : other ≠ name) :
    child? (putChild children name t) other = child? children other := by
  induction children with
  | nil => simp [putChild, child?, h.symm]
  | cons c rest ih =>
    obtain ⟨n, u⟩ := c
    by_cases hn : n = name
    · subst hn; simp [putChild, child?, h.symm]
    · rw [putChild, if_neg hn]
      by_cases ho : n = other <;> simp [child?, ho, ih]

theorem put_of_some {children : List (Name × FileTree)} {name : Name} {u : FileTree}
    (h : child? children name = some u) (rest : List Name) (new : FileTree) :
    (dir children).put (name :: rest) new = dir (putChild children name (u.put rest new)) := by
  rw [put.eq_2 _ _ _ _ _ h]

theorem put_of_none {children : List (Name × FileTree)} {name : Name}
    (h : child? children name = none) (rest : List Name) (new : FileTree) :
    (dir children).put (name :: rest) new =
      if rest = [] then dir (putChild children name new) else dir children := by
  cases rest <;> simp [put, h]

/-! ### Distinct names -/

theorem mem_of_child? {children : List (Name × FileTree)} {name : Name} {t : FileTree}
    (h : child? children name = some t) : (name, t) ∈ children := by
  induction children with
  | nil => cases h
  | cons c rest ih =>
    obtain ⟨n, u⟩ := c
    rw [child?] at h
    split at h
    next hname =>
      cases h
      exact hname ▸ List.mem_cons_self
    next hname => exact List.mem_cons_of_mem _ (ih h)

theorem allDistinct_iff {children : List (Name × FileTree)} :
    allDistinct children = true ↔ ∀ c ∈ children, c.2.isDistinct = true := by
  induction children with
  | nil => simp [allDistinct]
  | cons c rest ih => simp [allDistinct, ih]

theorem isDistinct_file (content : ByteArray) : (file content).isDistinct = true := rfl

theorem isDistinct_emptyDir : emptyDir.isDistinct = true := rfl

theorem isDistinct_dir {children : List (Name × FileTree)} : (dir children).isDistinct = true ↔
    (children.map (·.1)).Nodup ∧ ∀ c ∈ children, c.2.isDistinct = true := by
  rw [isDistinct, Bool.and_eq_true, decide_eq_true_eq, allDistinct_iff]

theorem keys_putChild {children : List (Name × FileTree)} {name : Name} (t : FileTree) :
    (putChild children name t).map (·.1) =
      if name ∈ children.map (·.1) then children.map (·.1) else children.map (·.1) ++ [name] := by
  induction children with
  | nil => rfl
  | cons c rest ih =>
    obtain ⟨n, u⟩ := c
    by_cases hname : n = name
    · simp [putChild, hname]
    · have hname' : name ≠ n := fun h => hname h.symm
      simp only [putChild, if_neg hname, List.map_cons, ih, List.mem_cons, hname', false_or]
      split <;> simp

theorem mem_putChild {children : List (Name × FileTree)} {name : Name} {t : FileTree}
    {c : Name × FileTree} (h : c ∈ putChild children name t) : c ∈ children ∨ c.2 = t := by
  induction children with
  | nil =>
    obtain rfl := List.mem_singleton.mp h
    exact .inr rfl
  | cons first rest ih =>
    obtain ⟨n, v⟩ := first
    rw [putChild] at h
    split at h
    · rcases List.mem_cons.mp h with rfl | hrest
      · exact .inr rfl
      · exact .inl (List.mem_cons_of_mem _ hrest)
    · rcases List.mem_cons.mp h with rfl | hrest
      · exact .inl List.mem_cons_self
      · exact (ih hrest).imp_left (List.mem_cons_of_mem _)

theorem isDistinct_putChild {children : List (Name × FileTree)} {t : FileTree} (name : Name)
    (h : (dir children).isDistinct = true) (ht : t.isDistinct = true) :
    (dir (putChild children name t)).isDistinct = true := by
  obtain ⟨hnodup, hall⟩ := isDistinct_dir.mp h
  refine isDistinct_dir.mpr ⟨?_, fun c hc => ?_⟩
  · rw [keys_putChild]
    split
    next => exact hnodup
    next hnew =>
      refine List.nodup_append.mpr ⟨hnodup, by simp, fun a ha b hb => ?_⟩
      rintro rfl
      exact hnew (List.mem_singleton.mp hb ▸ ha)
  · rcases mem_putChild hc with hold | hnew
    · exact hall c hold
    · exact hnew ▸ ht

theorem isDistinct_child {children : List (Name × FileTree)} {name : Name} {t : FileTree}
    (h : (dir children).isDistinct = true) (hchild : child? children name = some t) :
    t.isDistinct = true :=
  (isDistinct_dir.mp h).2 _ (mem_of_child? hchild)

theorem isDistinct_at? {t u : FileTree} {place : List Name} (h : t.isDistinct = true)
    (hat : t.at? place = some u) : u.isDistinct = true := by
  induction place generalizing t with
  | nil =>
    rw [at?_nil, Option.some.injEq] at hat
    exact hat ▸ h
  | cons name rest ih =>
    cases t with
    | dir children =>
      obtain ⟨v, hchild, hv⟩ := Option.bind_eq_some_iff.mp hat
      exact ih (isDistinct_child h hchild) hv
    | file content => cases hat
    | link target => cases hat

theorem isDistinct_put {t new : FileTree} {place : List Name} (h : t.isDistinct = true)
    (hnew : new.isDistinct = true) : (t.put place new).isDistinct = true := by
  induction place generalizing t with
  | nil =>
    rw [put]
    exact hnew
  | cons name rest ih =>
    cases t with
    | file content => rw [put] <;> simp [isDistinct]
    | link target => rw [put] <;> simp [isDistinct]
    | dir children =>
      cases hchild : child? children name with
      | some u =>
        rw [put_of_some hchild]
        exact isDistinct_putChild name h (ih (isDistinct_child h hchild))
      | none =>
        rw [put_of_none hchild]
        split
        · exact isDistinct_putChild name h hnew
        · exact h

theorem isDistinct_erase {t : FileTree} (place : List Name) (h : t.isDistinct = true) :
    (t.erase place).isDistinct = true := by
  induction place generalizing t with
  | nil =>
    rw [erase]
    exact h
  | cons name rest ih =>
    cases t with
    | file content => cases rest <;> exact h
    | link target => cases rest <;> exact h
    | dir children =>
      cases rest with
      | nil =>
        obtain ⟨hnodup, hall⟩ := isDistinct_dir.mp h
        rw [erase]
        exact isDistinct_dir.mpr ⟨(List.filter_sublist.map _).nodup hnodup,
          fun c hc => hall c (List.mem_filter.mp hc |>.1)⟩
      | cons next rest =>
        rw [erase]
        · split
          next u hchild => exact isDistinct_putChild name h (ih (isDistinct_child h hchild))
          next => exact h
        · simp

end FileTree

end Manifest
