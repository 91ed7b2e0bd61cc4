/-
# A file system with links

Objects are numbered, and a directory maps names to numbers, so one object can stand under
several names (hard links); a symbolic link is an object that holds a path.  `walk` resolves a
path name by name.  A symbolic link met on the way is replaced by its path, at most `maxLinks`
times; one in the last place is followed or not, as the call wants it (`reach`, `locate`).  The
calls that change the file system are relations between the file system before and after.
Permissions, quotas and several mounted file systems are not part of the picture.

`walk_follow` and `walk_follow_dir` compare the two ways of resolving: they differ only at a
symbolic link in the last place.
-/
import Mathlib.Logic.Function.Basic
import Mathlib.Logic.Relation
import PosixLab.Basis.CString
import PosixLab.Basis.Tokens

namespace PosixLab

/-- The number of an object. -/
abbrev Ino := Nat

/-- What is stored under a number. -/
inductive Node
  | file (data : Bytes)
  | dir (parent : Ino) (entries : Bytes → Option Ino)
  | symlink (target : Bytes)

structure FileSys where
  node : Ino → Option Node
  root : Ino

/-- The last step of a path: an entry of a directory, which may be missing, or a directory that
was reached by the root, `.` or `..`. -/
inductive Loc
  | entry (d : Ino) (name : Bytes)
  | self (i : Ino)
deriving DecidableEq, Repr

/-! ## 1. Paths -/

/-- The names of a path. -/
def comps (p : Bytes) : List Bytes := tokens (· == 47) p

/-- Whether a path ends in a slash. -/
def slash (p : Bytes) : Bool := p.getLast? == some 47

/-- The names of a path that is followed to the end: a slash at the end counts as a `.`. -/
def steps (p : Bytes) : List Bytes := if slash p then comps p ++ [[46]] else comps p

/-- The number of symbolic links that are followed at most. -/
def maxLinks : Nat := 40

namespace FileSys

variable (fs : FileSys)

/-- The object that a directory has under a name. -/
def lookup (d : Ino) (name : Bytes) : Option Ino :=
  match fs.node d with
  | some (.dir _ entries) => entries name
  | _ => none

def isDir (i : Ino) : Bool :=
  match fs.node i with
  | some (.dir _ _) => true
  | _ => false

/-- Where a path starts. -/
def start (cur : Ino) (p : Bytes) : Ino := if p.head? = some 47 then fs.root else cur

/-- Walk on from the directory `cur`; `next` takes over behind a symbolic link. -/
def walkWith (next : Ino → List Bytes → Option Loc) (follow : Bool) (cur : Ino) :
    List Bytes → Option Loc
  | [] => some (.self cur)
  | c :: cs =>
    match fs.node cur with
    | some (.dir parent entries) =>
      if c = [46] then walkWith next follow cur cs
      else if c = [46, 46] then walkWith next follow parent cs
      else
        match (entries c).bind fs.node with
        | some (.symlink t) =>
          if cs = [] ∧ follow = false then some (.entry cur c)
          else if t = [] then none
          else next (fs.start cur t) (steps t ++ cs)
        | _ =>
          if cs = [] then some (.entry cur c)
          else
            match entries c with
            | some i => walkWith next follow i cs
            | none => none
    | _ => none

/-- Walk with at most so many symbolic links. -/
def walk (follow : Bool) : Nat → Ino → List Bytes → Option Loc
  | 0 => fs.walkWith (fun _ _ => none) follow
  | n + 1 => fs.walkWith (walk follow n) follow

/-- Resolve a path for a call that acts on the last entry itself. -/
def locate (cwd : Ino) (p : Bytes) : Option Loc :=
  if p = [] then none else fs.walk false maxLinks (fs.start cwd p) (comps p)

/-- Resolve a path for a call that follows a symbolic link in the last place. -/
def reach (cwd : Ino) (p : Bytes) : Option Loc :=
  if p = [] then none else fs.walk true maxLinks (fs.start cwd p) (steps p)

/-- The object that a path leads to. -/
def target (cwd : Ino) (p : Bytes) : Option Ino :=
  (fs.reach cwd p).bind fun
    | .entry d name => fs.lookup d name
    | .self i => some i

/-- The test `access(p, F_OK)`. -/
def accessible (cwd : Ino) (p : Bytes) : Bool := ((fs.target cwd p).bind fs.node).isSome

/-- The directory entry at a path, with the object it refers to. -/
def entryAt (cwd : Ino) (p : Bytes) : Option (Ino × Bytes × Ino) :=
  match fs.locate cwd p with
  | some (.entry d name) => (fs.lookup d name).map fun i => (d, name, i)
  | _ => none

/-! ## 2. Changes -/

/-- Put an object under a number. -/
def setNode (i : Ino) (x : Node) : FileSys := { fs with node := Function.update fs.node i (some x) }

/-- Make an entry of a directory refer to an object, or remove it. -/
def setEntry (d : Ino) (name : Bytes) (v : Option Ino) : FileSys :=
  match fs.node d with
  | some (.dir parent entries) => fs.setNode d (.dir parent (Function.update entries name v))
  | _ => fs

/-- A number that stands for nothing. -/
def Unused (i : Ino) : Prop := fs.node i = none ∧ ∀ d name, fs.lookup d name ≠ some i

/-- Put a new object under a new entry. -/
def NewEntry (loc : Option Loc) (x : Node) (fs' : FileSys) (i : Ino) : Prop :=
  ∃ d name, loc = some (.entry d name) ∧ fs.lookup d name = none ∧ fs.Unused i ∧
    fs' = (fs.setNode i x).setEntry d name (some i)

/-- The call `open` with `O_WRONLY | O_CREAT | O_TRUNC`: an existing file is emptied, and where
the path leads to a missing entry a file is created. -/
def OpensForWriting (cwd : Ino) (p : Bytes) (fs' : FileSys) (i : Ino) : Prop :=
  (fs.target cwd p = some i ∧ (∃ data, fs.node i = some (.file data)) ∧
      fs' = fs.setNode i (.file [])) ∨
    fs.NewEntry (fs.reach cwd p) (.file []) fs' i

/-- The call `unlink`. -/
def Unlinks (cwd : Ino) (p : Bytes) (fs' : FileSys) : Prop :=
  ∃ d name i, fs.entryAt cwd p = some (d, name, i) ∧ fs.isDir i = false ∧ slash p = false ∧
    fs' = fs.setEntry d name none

/-- The call `link`, which does not follow a symbolic link. -/
def Links (cwd : Ino) (old new : Bytes) (fs' : FileSys) : Prop :=
  ∃ d name i d' name', fs.entryAt cwd old = some (d, name, i) ∧ fs.isDir i = false ∧
    slash old = false ∧ slash new = false ∧ fs.locate cwd new = some (.entry d' name') ∧
    fs.lookup d' name' = none ∧ fs' = fs.setEntry d' name' (some i)

/-- The call `symlink`. -/
def Symlinks (cwd : Ino) (text new : Bytes) (fs' : FileSys) : Prop :=
  text ≠ [] ∧ slash new = false ∧ ∃ i, fs.NewEntry (fs.locate cwd new) (.symlink text) fs' i

/-- The directory `i` is `d` or lies above it. -/
def Above (i d : Ino) : Prop :=
  Relation.ReflTransGen (fun x y => ∃ entries, fs.node x = some (.dir y entries)) d i

/-- Move the entry `name` of `d` to the entry `name'` of `d'`. -/
def move (d : Ino) (name : Bytes) (d' : Ino) (name' : Bytes) (i : Ino) : FileSys :=
  let fs' := (fs.setEntry d name none).setEntry d' name' (some i)
  match fs'.node i with
  | some (.dir _ entries) => fs'.setNode i (.dir d' entries)
  | _ => fs'

/-- The call `rename`.  If both paths are names of one object nothing happens.  A directory
replaces an empty directory only, is not moved below itself, and may be written with a slash;
anything else replaces anything but a directory. -/
def Renames (cwd : Ino) (old new : Bytes) (fs' : FileSys) : Prop :=
  ∃ d name i d' name', fs.entryAt cwd old = some (d, name, i) ∧
    fs.locate cwd new = some (.entry d' name') ∧
    (fs.isDir i = false → slash old = false ∧ slash new = false) ∧
    ((fs.lookup d' name' = some i ∧ fs' = fs) ∨
      (fs.lookup d' name' ≠ some i ∧ (fs.isDir i = true → ¬ fs.Above i d') ∧
        (∀ j, fs.lookup d' name' = some j →
          fs.isDir j = fs.isDir i ∧ ∀ x, fs.lookup j x = none) ∧
        fs' = fs.move d name d' name' i))

/-! ## 3. What a change leaves -/

variable {fs}

@[simp] theorem node_setNode_self (i : Ino) (x : Node) : (fs.setNode i x).node i = some x := by
  simp [setNode]

theorem node_setNode_of_ne {i j : Ino} (h : j ≠ i) (x : Node) :
    (fs.setNode i x).node j = fs.node j := by
  simp [setNode, h]

theorem lookup_setNode_of_ne {i d : Ino} (h : d ≠ i) (x : Node) (name : Bytes) :
    (fs.setNode i x).lookup d name = fs.lookup d name := by
  simp [lookup, node_setNode_of_ne h]

theorem node_setEntry_of_ne {d i : Ino} (h : i ≠ d) (name : Bytes) (v : Option Ino) :
    (fs.setEntry d name v).node i = fs.node i := by
  unfold setEntry
  split
  · exact node_setNode_of_ne h _
  · rfl

/-- A changed entry of a directory. -/
theorem lookup_setEntry_self {d : Ino} (h : fs.isDir d = true) (name : Bytes) (v : Option Ino) :
    (fs.setEntry d name v).lookup d name = v := by
  unfold isDir at h
  split at h
  · simp [setEntry, lookup, *]
  · cases h

/-- The other entries stay. -/
theorem lookup_setEntry_of_ne {d e : Ino} {name name' : Bytes} (h : (e, name') ≠ (d, name))
    (v : Option Ino) : (fs.setEntry d name v).lookup e name' = fs.lookup e name' := by
  unfold setEntry
  split
  · by_cases he : e = d
    · subst he
      have hn : name' ≠ name := fun hn => h (by rw [hn])
      simp [lookup, *]
    · exact lookup_setNode_of_ne he _ _
  · rfl

theorem isDir_of_lookup {d i : Ino} {name : Bytes} (h : fs.lookup d name = some i) :
    fs.isDir d = true := by
  unfold lookup at h
  unfold isDir
  split at h
  · simp [*]
  · cases h

theorem lookup_of_node {d parent : Ino} {entries : Bytes → Option Ino}
    (h : fs.node d = some (.dir parent entries)) (name : Bytes) :
    fs.lookup d name = entries name := by
  rw [lookup, h]

theorem exists_of_isDir {i : Ino} (h : fs.isDir i = true) :
    ∃ parent entries, fs.node i = some (.dir parent entries) := by
  unfold isDir at h
  split at h
  · exact ⟨_, _, ‹_›⟩
  · cases h

/-! ## 4. Following the last symbolic link or not -/

/-- How a walk goes on from the directory `cur` by one name. -/
inductive WalkStep (fs : FileSys) (next : Ino → List Bytes → Option Loc) (follow : Bool)
    (cur : Ino) : Bytes → List Bytes → Loc → Prop
  | stay {parent entries cs loc} (hnode : fs.node cur = some (.dir parent entries))
      (h : fs.walkWith next follow cur cs = some loc) : WalkStep fs next follow cur [46] cs loc
  | up {parent entries cs loc} (hnode : fs.node cur = some (.dir parent entries))
      (h : fs.walkWith next follow parent cs = some loc) :
      WalkStep fs next follow cur [46, 46] cs loc
  | link {parent entries c t} (hnode : fs.node cur = some (.dir parent entries))
      (hdot : c ≠ [46]) (hdots : c ≠ [46, 46])
      (hlink : (entries c).bind fs.node = some (.symlink t)) (hfollow : follow = false) :
      WalkStep fs next follow cur c [] (.entry cur c)
  | jump {parent entries c cs loc t} (hnode : fs.node cur = some (.dir parent entries))
      (hdot : c ≠ [46]) (hdots : c ≠ [46, 46])
      (hlink : (entries c).bind fs.node = some (.symlink t)) (hgo : ¬(cs = [] ∧ follow = false))
      (ht : t ≠ []) (h : next (fs.start cur t) (steps t ++ cs) = some loc) :
      WalkStep fs next follow cur c cs loc
  | last {parent entries c} (hnode : fs.node cur = some (.dir parent entries))
      (hdot : c ≠ [46]) (hdots : c ≠ [46, 46])
      (hno : ∀ t, (entries c).bind fs.node ≠ some (.symlink t)) :
      WalkStep fs next follow cur c [] (.entry cur c)
  | down {parent entries c cs loc i} (hnode : fs.node cur = some (.dir parent entries))
      (hdot : c ≠ [46]) (hdots : c ≠ [46, 46])
      (hno : ∀ t, (entries c).bind fs.node ≠ some (.symlink t)) (hcs : cs ≠ [])
      (hi : entries c = some i) (h : fs.walkWith next follow i cs = some loc) :
      WalkStep fs next follow cur c cs loc

section

variable {cur : Ino} {next : Ino → List Bytes → Option Loc} {follow : Bool} {c : Bytes}
  {cs : List Bytes} {loc : Loc}

theorem walkWith_step (h : fs.walkWith next follow cur (c :: cs) = some loc) :
    fs.WalkStep next follow cur c cs loc := by
  unfold walkWith at h
  split at h
  · rename_i parent entries hnode
    by_cases hdot : c = [46]
    · subst hdot
      exact .stay hnode (by simpa using h)
    by_cases hdots : c = [46, 46]
    · subst hdots
      exact .up hnode (by simpa using h)
    rw [if_neg hdot, if_neg hdots] at h
    split at h
    · rename_i t hlink
      by_cases hlast : cs = [] ∧ follow = false
      · obtain ⟨rfl, hfollow⟩ := hlast
        obtain rfl : .entry cur c = loc := by simpa [hfollow] using h
        exact .link hnode hdot hdots hlink hfollow
      · rw [if_neg hlast] at h
        split at h
        · cases h
        · exact .jump hnode hdot hdots hlink hlast ‹_› h
    · rename_i hno
      split at h
      · rename_i hcs
        subst hcs
        cases h
        exact .last hnode hdot hdots hno
      · split at h
        · exact .down hnode hdot hdots hno ‹_› ‹_› h
        · cases h
  · cases h

theorem WalkStep.walk (h : fs.WalkStep next follow cur c cs loc) :
    fs.walkWith next follow cur (c :: cs) = some loc := by
  cases h with
  | stay hnode h => simpa [walkWith, hnode] using h
  | up hnode h => simpa [walkWith, hnode] using h
  | link hnode hdot hdots hlink hfollow =>
    rw [walkWith, hnode]
    simp [hdot, hdots, hlink, hfollow]
  | jump hnode hdot hdots hlink hgo ht h =>
    rw [walkWith, hnode]
    simp only [hdot, hdots, hlink, if_false]
    rw [if_neg hgo, if_neg ht]
    exact h
  | last hnode hdot hdots hno =>
    rw [walkWith, hnode]
    simp [hdot, hdots]
  | down hnode hdot hdots hno hcs hi h =>
    rw [walkWith, hnode]
    simp only [hdot, hdots, if_false]
    rw [if_neg hcs, hi]
    exact h

end

section

variable {d : Ino} {name : Bytes} {next next' : Ino → List Bytes → Option Loc}

/-- If the last entry is no symbolic link, following it makes no difference. -/
theorem walkWith_follow (hlast : ∀ t, (fs.lookup d name).bind fs.node ≠ some (.symlink t))
    (hnext : ∀ {cur cs}, next cur cs = some (.entry d name) →
      next' cur cs = some (.entry d name))
    {cur : Ino} {cs : List Bytes}
    (h : fs.walkWith next false cur cs = some (.entry d name)) :
    fs.walkWith next' true cur cs = some (.entry d name) := by
  induction cs generalizing cur with
  | nil => cases h
  | cons c cs ih =>
    cases walkWith_step h with
    | stay hnode h => exact (WalkStep.stay hnode (ih h)).walk
    | up hnode h => exact (WalkStep.up hnode (ih h)).walk
    | @link _ _ _ t hnode hdot hdots hlink =>
      refine absurd ?_ (hlast t)
      rwa [lookup_of_node hnode]
    | jump hnode hdot hdots hlink hgo ht h =>
      exact (WalkStep.jump hnode hdot hdots hlink (by simp) ht (hnext h)).walk
    | last hnode hdot hdots hno => exact (WalkStep.last hnode hdot hdots hno).walk
    | down hnode hdot hdots hno hcs hi h =>
      exact (WalkStep.down hnode hdot hdots hno hcs hi (ih h)).walk

/-- If the last entry is a directory, a `.` behind it leads into it. -/
theorem walkWith_follow_dir {i : Ino} (hi : fs.lookup d name = some i) (hdir : fs.isDir i = true)
    (hnext : ∀ {cur cs}, next cur cs = some (.entry d name) →
      next' cur (cs ++ [[46]]) = some (.self i))
    {cur : Ino} {cs : List Bytes}
    (h : fs.walkWith next false cur cs = some (.entry d name)) :
    fs.walkWith next' true cur (cs ++ [[46]]) = some (.self i) := by
  obtain ⟨par, ents, hnodei⟩ := exists_of_isDir hdir
  induction cs generalizing cur with
  | nil => cases h
  | cons c cs ih =>
    rw [List.cons_append]
    cases walkWith_step h with
    | stay hnode h => exact (WalkStep.stay hnode (ih h)).walk
    | up hnode h => exact (WalkStep.up hnode (ih h)).walk
    | link hnode hdot hdots hlink =>
      -- the last entry would be the link and a directory
      rw [← lookup_of_node hnode, hi, Option.bind_some, hnodei] at hlink
      cases hlink
    | jump hnode hdot hdots hlink hgo ht h =>
      refine (WalkStep.jump hnode hdot hdots hlink (by simp) ht ?_).walk
      rw [← List.append_assoc]
      exact hnext h
    | last hnode hdot hdots hno =>
      rw [lookup_of_node hnode] at hi
      refine (WalkStep.down hnode hdot hdots hno (by simp) hi ?_).walk
      exact (WalkStep.stay hnodei rfl).walk
    | down hnode hdot hdots hno hcs hj h =>
      exact (WalkStep.down hnode hdot hdots hno (by simp) hj (ih h)).walk

theorem walk_follow (hlast : ∀ t, (fs.lookup d name).bind fs.node ≠ some (.symlink t)) {n : Nat}
    {cur : Ino} {cs : List Bytes} (h : fs.walk false n cur cs = some (.entry d name)) :
    fs.walk true n cur cs = some (.entry d name) := by
  induction n generalizing cur cs with
  | zero => exact walkWith_follow hlast (fun h => by cases h) h
  | succ n ih => exact walkWith_follow hlast ih h

theorem walk_follow_dir {i : Ino} (hi : fs.lookup d name = some i) (hdir : fs.isDir i = true)
    {n : Nat} {cur : Ino} {cs : List Bytes}
    (h : fs.walk false n cur cs = some (.entry d name)) :
    fs.walk true n cur (cs ++ [[46]]) = some (.self i) := by
  induction n generalizing cur cs with
  | zero => exact walkWith_follow_dir hi hdir (fun h => by cases h) h
  | succ n ih => exact walkWith_follow_dir hi hdir (fun h => ih h) h

theorem entryAt_eq_some {cwd i : Ino} {p : Bytes} :
    fs.entryAt cwd p = some (d, name, i) ↔
      fs.locate cwd p = some (.entry d name) ∧ fs.lookup d name = some i := by
  unfold entryAt
  split
  · rename_i d' name' hloc
    simp only [Option.map_eq_some_iff, Prod.mk.injEq, hloc, Option.some.injEq, Loc.entry.injEq]
    constructor
    · rintro ⟨_, h, rfl, rfl, rfl⟩
      exact ⟨⟨rfl, rfl⟩, h⟩
    · rintro ⟨⟨rfl, rfl⟩, h⟩
      exact ⟨_, h, rfl, rfl, rfl⟩
  · rename_i hno
    simp only [reduceCtorEq, false_iff, not_and]
    exact fun h => absurd h (hno d name)

/-- What stands at a path and is no symbolic link is found there.  Behind a slash it has to be a
directory. -/
theorem accessible_of_entryAt {cwd i : Ino} {p : Bytes} {x : Node}
    (h : fs.entryAt cwd p = some (d, name, i)) (hnode : fs.node i = some x)
    (hx : fs.isDir i = true ∨ slash p = false ∧ ∀ t, x ≠ .symlink t) :
    fs.accessible cwd p = true := by
  obtain ⟨hloc, hi⟩ := entryAt_eq_some.mp h
  have hlast : ∀ t, (fs.lookup d name).bind fs.node ≠ some (.symlink t) := by
    intro t ht
    rw [hi, Option.bind_some, hnode] at ht
    rcases hx with hdir | ⟨-, hx⟩
    · simp [isDir, hnode, Option.some.inj ht] at hdir
    · exact hx t (Option.some.inj ht)
  unfold locate at hloc
  split at hloc
  · cases hloc
  · rename_i hne
    have htarget : fs.target cwd p = some i := by
      unfold target reach
      rw [if_neg hne]
      unfold steps
      split
      · have hdir : fs.isDir i = true := hx.resolve_right fun hx => by simp_all
        rw [walk_follow_dir hi hdir hloc]
        rfl
      · rw [walk_follow hlast hloc]
        exact hi
    simp [accessible, htarget, hnode]

/-! ## 5. What new entries and moves leave -/

/-- Where a new entry is made no other one changes, nor any object but its directory. -/
theorem NewEntry.keeps {loc : Option Loc} {x : Node} {fs' : FileSys} {i j : Ino}
    (h : fs.NewEntry loc x fs' i) (hj : fs.lookup d name = some j) :
    fs'.lookup d name = some j ∧ (fs.isDir j = false → fs'.node j = fs.node j) ∧ j ≠ i := by
  obtain ⟨d₀, name₀, -, hno, ⟨hnode, hunused⟩, rfl⟩ := h
  have hdi : d ≠ i := by
    rintro rfl
    simp [lookup, hnode] at hj
  have hji : j ≠ i := fun h => hunused d name (h ▸ hj)
  have hne : (d, name) ≠ (d₀, name₀) := by
    intro h
    cases h
    rw [hno] at hj
    cases hj
  refine ⟨?_, fun hdir => ?_, hji⟩
  · rw [lookup_setEntry_of_ne hne, lookup_setNode_of_ne hdi, hj]
  · by_cases hjd : j = d₀
    · -- then `setEntry` finds no directory to change
      subst hjd
      have hfile : (fs.setNode i x).node j = fs.node j := node_setNode_of_ne hji x
      unfold setEntry
      split
      · rename_i hdirj
        rw [hfile] at hdirj
        simp [isDir, hdirj] at hdir
      · exact hfile
    · rw [node_setEntry_of_ne hjd, node_setNode_of_ne hji]

/-- After the move of anything but a directory the new entry refers to it. -/
theorem lookup_move {i d' : Ino} {name' : Bytes} (hd : fs.isDir d = true)
    (hd' : fs.isDir d' = true) (hi : fs.isDir i = false) :
    (fs.move d name d' name' i).lookup d' name' = some i := by
  have hid : i ≠ d := by
    rintro rfl
    simp [hd] at hi
  have hid' : i ≠ d' := by
    rintro rfl
    simp [hd'] at hi
  have hdir : (fs.setEntry d name none).isDir d' = true := by
    by_cases h : d' = d
    · subst h
      unfold isDir at hd
      split at hd
      · simp [setEntry, isDir, *]
      · cases hd
    · simpa [isDir, node_setEntry_of_ne h] using hd'
  have hnode : ((fs.setEntry d name none).setEntry d' name' (some i)).node i = fs.node i := by
    rw [node_setEntry_of_ne hid', node_setEntry_of_ne hid]
  unfold move
  dsimp only
  split
  · rename_i hdiri
    rw [hnode] at hdiri
    simp [isDir, hdiri] at hi
  · exact lookup_setEntry_self hdir _ _

end

/-! ## 6. Growth -/

/-- The contents of a file. -/
def data (fs : FileSys) (i : Ino) : Option Bytes :=
  match fs.node i with
  | some (.file text) => some text
  | _ => none

/-- Directories keep what they have, and nothing that has a name becomes a symbolic link or stops
being one.  So every path that led to something leads there still. -/
structure Grows (fs fs' : FileSys) : Prop where
  root : fs'.root = fs.root
  dir : ∀ {d parent entries}, fs.node d = some (.dir parent entries) →
    ∃ entries', fs'.node d = some (.dir parent entries') ∧
      ∀ {name i}, entries name = some i → entries' name = some i
  link : ∀ {d name i t}, fs.lookup d name = some i →
    (fs'.node i = some (.symlink t) ↔ fs.node i = some (.symlink t))

section

variable {fs' fs'' : FileSys} {d i j : Ino} {name : Bytes}
  {next next' : Ino → List Bytes → Option Loc} {follow : Bool} {loc : Loc}

theorem data_eq_some {text : Bytes} : fs.data i = some text ↔ fs.node i = some (.file text) := by
  unfold data
  split
  · simp [*]
  · rename_i hno
    simp only [reduceCtorEq, false_iff]
    exact hno text

@[simp] theorem data_setNode_self (i : Ino) (text : Bytes) :
    (fs.setNode i (.file text)).data i = some text := by
  simp [data]

theorem data_setNode_of_ne (h : j ≠ i) (x : Node) : (fs.setNode i x).data j = fs.data j := by
  simp [data, node_setNode_of_ne h]

/-- Entries are no contents. -/
@[simp] theorem data_setEntry (d : Ino) (name : Bytes) (v : Option Ino) (i : Ino) :
    (fs.setEntry d name v).data i = fs.data i := by
  unfold setEntry
  split
  · by_cases h : i = d
    · subst h
      simp [data, *]
    · exact data_setNode_of_ne h _
  · rfl

namespace Grows

theorem refl (fs : FileSys) : Grows fs fs := by
  exact ⟨rfl, fun h => ⟨_, h, id⟩, fun _ => Iff.rfl⟩

theorem lookup (h : Grows fs fs') (hi : fs.lookup d name = some i) :
    fs'.lookup d name = some i := by
  unfold FileSys.lookup at hi
  split at hi
  · obtain ⟨entries', hnode', hent⟩ := h.dir ‹_›
    simp only [FileSys.lookup, hnode']
    exact hent hi
  · cases hi

theorem trans (h : Grows fs fs') (h' : Grows fs' fs'') : Grows fs fs'' := by
  refine ⟨h'.root.trans h.root, fun hnode => ?_,
    fun hi => (h'.link (h.lookup hi)).trans (h.link hi)⟩
  obtain ⟨entries', hnode', hent⟩ := h.dir hnode
  obtain ⟨entries'', hnode'', hent'⟩ := h'.dir hnode'
  exact ⟨entries'', hnode'', fun hname => hent' (hent hname)⟩

/-- Writing a file. -/
theorem setFile {text : Bytes} (hj : fs.data j = some text) (text' : Bytes) :
    Grows fs (fs.setNode j (.file text')) := by
  have hnode := data_eq_some.mp hj
  refine ⟨rfl, fun {d _ entries} hdir => ⟨entries, ?_, id⟩, fun {_ _ i _} _ => ?_⟩
  · have hne : d ≠ j := by
      rintro rfl
      simp [hnode] at hdir
    rwa [node_setNode_of_ne hne]
  · by_cases hij : i = j
    · subst hij
      simp [hnode]
    · rw [node_setNode_of_ne hij]

/-- A new object that nothing refers to. -/
theorem setUnused (hj : fs.Unused j) (x : Node) : Grows fs (fs.setNode j x) := by
  refine ⟨rfl, fun {d _ entries} hdir => ⟨entries, ?_, id⟩, fun {d name i _} hi => ?_⟩
  · have hne : d ≠ j := by
      rintro rfl
      simp [hj.1] at hdir
    rwa [node_setNode_of_ne hne]
  · have hne : i ≠ j := by
      rintro rfl
      exact hj.2 d name hi
    rw [node_setNode_of_ne hne]

/-- A new name. -/
theorem setEntry (hno : fs.lookup d name = none) (v : Option Ino) :
    Grows fs (fs.setEntry d name v) := by
  unfold FileSys.setEntry
  split
  · rename_i parent entries hnode
    have hname : entries name = none := by simpa [FileSys.lookup, hnode] using hno
    refine ⟨rfl, fun {e _ _} hdir => ?_, fun {_ _ i _} _ => ?_⟩
    · by_cases he : e = d
      · subst he
        cases hnode.symm.trans hdir
        refine ⟨_, node_setNode_self _ _, fun {name' k} hk => ?_⟩
        have hne : name' ≠ name := by
          rintro rfl
          simp [hname] at hk
        rwa [Function.update_of_ne hne]
      · exact ⟨_, (node_setNode_of_ne he _).trans hdir, id⟩
    · by_cases hi : i = d
      · subst hi
        simp [hnode]
      · rw [node_setNode_of_ne hi]
  · exact refl fs

end Grows

/-- A walk ends at an entry of a directory. -/
theorem isDir_of_walkWith (hnext : ∀ {cur cs}, next cur cs = some (.entry d name) →
    fs.isDir d = true) {cur : Ino} {cs : List Bytes}
    (h : fs.walkWith next follow cur cs = some (.entry d name)) : fs.isDir d = true := by
  induction cs generalizing cur with
  | nil => cases h
  | cons c cs ih =>
    cases walkWith_step h with
    | stay _ h | up _ h | down _ _ _ _ _ _ h => exact ih h
    | jump _ _ _ _ _ _ h => exact hnext h
    | link hnode | last hnode => simp [isDir, hnode]

theorem isDir_of_reach {cwd : Ino} {p : Bytes} (h : fs.reach cwd p = some (.entry d name)) :
    fs.isDir d = true := by
  have hwalk : ∀ n {cur cs}, fs.walk true n cur cs = some (.entry d name) →
      fs.isDir d = true := by
    intro n
    induction n with
    | zero => exact isDir_of_walkWith fun h => by cases h
    | succ n ih => exact isDir_of_walkWith ih
  unfold reach at h
  split at h
  · cases h
  · exact hwalk _ h

namespace Grows

/-- A walk that has come to its end comes to the same end, if a symbolic link is not what is new
there. -/
theorem walkWith (h : Grows fs fs')
    (hend : ∀ {d name t}, loc = .entry d name → fs.lookup d name = none →
      (fs'.lookup d name).bind fs'.node ≠ some (.symlink t))
    (hnext : ∀ {cur cs}, next cur cs = some loc → next' cur cs = some loc)
    {cur : Ino} {cs : List Bytes} (hw : fs.walkWith next follow cur cs = some loc) :
    fs'.walkWith next' follow cur cs = some loc := by
  -- an entry stays a symbolic link, or none
  have hlink : ∀ {cur c i t}, fs.lookup cur c = some i →
      ((fs'.lookup cur c).bind fs'.node = some (.symlink t) ↔
        (fs.lookup cur c).bind fs.node = some (.symlink t)) := by
    intro cur c i t hi
    rw [h.lookup hi, hi]
    exact h.link hi
  induction cs generalizing cur with
  | nil => exact hw
  | cons c cs ih =>
    cases walkWith_step hw with
    | stay hnode hw =>
      obtain ⟨entries', hnode', -⟩ := h.dir hnode
      exact (WalkStep.stay hnode' (ih hw)).walk
    | up hnode hw =>
      obtain ⟨entries', hnode', -⟩ := h.dir hnode
      exact (WalkStep.up hnode' (ih hw)).walk
    | link hnode hdot hdots ht hfollow =>
      obtain ⟨entries', hnode', -⟩ := h.dir hnode
      obtain ⟨i, hi, -⟩ := Option.bind_eq_some_iff.mp ht
      rw [← lookup_of_node hnode] at ht hi
      have ht' := (hlink hi).mpr ht
      rw [lookup_of_node hnode'] at ht'
      exact (WalkStep.link hnode' hdot hdots ht' hfollow).walk
    | jump hnode hdot hdots ht hgo hne hw =>
      obtain ⟨entries', hnode', -⟩ := h.dir hnode
      obtain ⟨i, hi, -⟩ := Option.bind_eq_some_iff.mp ht
      rw [← lookup_of_node hnode] at ht hi
      have ht' := (hlink hi).mpr ht
      rw [lookup_of_node hnode'] at ht'
      refine (WalkStep.jump hnode' hdot hdots ht' hgo hne ?_).walk
      rw [start, h.root]
      exact hnext hw
    | last hnode hdot hdots hno =>
      obtain ⟨entries', hnode', -⟩ := h.dir hnode
      refine (WalkStep.last hnode' hdot hdots fun t ht => ?_).walk
      rw [← lookup_of_node hnode'] at ht
      cases hi : fs.lookup cur c with
      | none => exact hend rfl hi ht
      | some i =>
        rw [hlink hi, lookup_of_node hnode] at ht
        exact hno t ht
    | down hnode hdot hdots hno hcs hi hw =>
      obtain ⟨entries', hnode', hent⟩ := h.dir hnode
      refine (WalkStep.down hnode' hdot hdots (fun t ht => ?_) hcs (hent hi) (ih hw)).walk
      rw [← lookup_of_node hnode] at hi
      rw [← lookup_of_node hnode', hlink hi, lookup_of_node hnode] at ht
      exact hno t ht

theorem reach (h : Grows fs fs')
    (hend : ∀ {d name t}, loc = .entry d name → fs.lookup d name = none →
      (fs'.lookup d name).bind fs'.node ≠ some (.symlink t))
    {cwd : Ino} {p : Bytes} (hp : fs.reach cwd p = some loc) : fs'.reach cwd p = some loc := by
  have hwalk : ∀ n {cur cs}, fs.walk true n cur cs = some loc →
      fs'.walk true n cur cs = some loc := by
    intro n
    induction n with
    | zero => exact h.walkWith hend fun hno => by cases hno
    | succ n ih => exact h.walkWith hend ih
  have hstart : fs'.start cwd p = fs.start cwd p := by rw [start, start, h.root]
  unfold FileSys.reach at hp ⊢
  split at hp
  · cases hp
  · rw [if_neg ‹_›, hstart]
    exact hwalk _ hp

/-- A path that leads to something leads there still. -/
theorem target (h : Grows fs fs') {cwd : Ino} {p : Bytes} (hp : fs.target cwd p = some i) :
    fs'.target cwd p = some i := by
  obtain ⟨loc, hreach, hloc⟩ := Option.bind_eq_some_iff.mp hp
  have hreach' : fs'.reach cwd p = some loc := by
    refine h.reach (fun hl hno => ?_) hreach
    subst hl
    rw [show fs.lookup _ _ = some i from hloc] at hno
    cases hno
  rw [FileSys.target, hreach', Option.bind_some]
  cases loc with
  | entry d name => exact h.lookup hloc
  | self i => exact hloc

end Grows

/-- What `open` leaves that opens a file for writing: the file is empty, it is what the path leads
to, and it was that or it is new. -/
theorem OpensForWriting.spec {cwd : Ino} {p : Bytes} (h : fs.OpensForWriting cwd p fs' j) :
    Grows fs fs' ∧ fs'.target cwd p = some j ∧ fs'.data j = some [] ∧
      (∀ k, k ≠ j → fs'.data k = fs.data k) ∧
      ((fs.target cwd p = some j ∧ ∃ text, fs.data j = some text) ∨ fs.node j = none) := by
  rcases h with ⟨htarget, ⟨text, hnode⟩, rfl⟩ | ⟨d, name, hreach, hno, hunused, rfl⟩
  · have hgrows := Grows.setFile (data_eq_some.mpr hnode) []
    exact ⟨hgrows, hgrows.target htarget, data_setNode_self _ _,
      fun k hk => data_setNode_of_ne hk _, .inl ⟨htarget, text, data_eq_some.mpr hnode⟩⟩
  · have hdir := isDir_of_reach hreach
    have hdj : d ≠ j := by
      rintro rfl
      simp [isDir, hunused.1] at hdir
    have hno' : (fs.setNode j (.file [])).lookup d name = none := by
      rw [lookup_setNode_of_ne hdj, hno]
    have hgrows : Grows fs ((fs.setNode j (.file [])).setEntry d name (some j)) :=
      (Grows.setUnused hunused _).trans (Grows.setEntry hno' _)
    have hlook : ((fs.setNode j (.file [])).setEntry d name (some j)).lookup d name = some j := by
      refine lookup_setEntry_self ?_ _ _
      rwa [isDir, node_setNode_of_ne hdj]
    refine ⟨hgrows, ?_, by simp, fun k hk => ?_, .inr hunused.1⟩
    · have hreach' : ((fs.setNode j (.file [])).setEntry d name (some j)).reach cwd p =
          some (.entry d name) := by
        refine hgrows.reach (fun hl _ => ?_) hreach
        cases hl
        rw [hlook, Option.bind_some, node_setEntry_of_ne hdj.symm, node_setNode_self]
        simp
      rw [FileSys.target, hreach', Option.bind_some]
      exact hlook
    · rw [data_setEntry, data_setNode_of_ne hk]

end

end FileSys

end PosixLab
