/-
# One name more

A program that goes down a directory tree writes a `/` and a name behind the path it has.  Where
that path leads to a directory, the longer one leads to the entry of that name in it: the links on
the way are followed as before, and nothing but the last name is new (`locate_concat`,
`target_concat`).
-/
import PosixLab.Basis.FileSystem
import PosixLab.Basis.Paths

namespace PosixLab

namespace FileSys

variable {fs : FileSys}

/-! ## 1. Walks -/

/-- The object at the end of a walk. -/
def atLoc (fs : FileSys) : Loc → Option Ino
  | .entry d name => fs.lookup d name
  | .self i => some i

theorem target_eq (cwd : Ino) (p : Bytes) : fs.target cwd p = (fs.reach cwd p).bind fs.atLoc := by
  rw [target]
  rfl

section

variable {i parent : Ino} {entries : Bytes → Option Ino} {name : Bytes} {follow : Bool}
  {next next' : Ino → List Bytes → Option Loc} {loc : Loc} {cur : Ino} {cs rest : List Bytes}

/-- From where a walk leads to a directory, one name more leads to an entry of it. -/
theorem walkWith_concat (hi : fs.node i = some (.dir parent entries)) (hdot : name ≠ [46])
    (hdots : name ≠ [46, 46])
    (hlast : follow = true → ∀ t, (entries name).bind fs.node ≠ some (.symlink t))
    (hnext : ∀ {cur cs loc}, next cur cs = some loc → fs.atLoc loc = some i →
      next' cur (cs ++ [name]) = some (.entry i name))
    (h : fs.walkWith next true cur cs = some loc) (hloc : fs.atLoc loc = some i) :
    fs.walkWith next' follow cur (cs ++ [name]) = some (.entry i name) := by
  have hend : fs.walkWith next' follow i [name] = some (.entry i name) := by
    by_cases hlink : ∃ t, (entries name).bind fs.node = some (.symlink t)
    · obtain ⟨t, ht⟩ := hlink
      have hfollow : follow = false := by
        by_contra hf
        exact hlast (by simpa using hf) t ht
      exact (WalkStep.link hi hdot hdots ht hfollow).walk
    · exact (WalkStep.last hi hdot hdots (not_exists.mp hlink)).walk
  induction cs generalizing cur with
  | nil =>
    cases h
    obtain rfl : cur = i := Option.some.inj hloc
    exact hend
  | cons c cs ih =>
    rw [List.cons_append]
    cases walkWith_step h with
    | stay hnode h => exact (WalkStep.stay hnode (ih h)).walk
    | up hnode h => exact (WalkStep.up hnode (ih h)).walk
    | link _ _ _ _ hfollow => cases hfollow
    | jump hnode hcdot hcdots hlink hgo ht h =>
      refine (WalkStep.jump hnode hcdot hcdots hlink (by simp) ht ?_).walk
      rw [← List.append_assoc]
      exact hnext h hloc
    | last hnode hcdot hcdots hno =>
      rw [atLoc, lookup_of_node hnode] at hloc
      exact (WalkStep.down hnode hcdot hcdots hno (by simp) hloc hend).walk
    | down hnode hcdot hcdots hno hcs hj h =>
      exact (WalkStep.down hnode hcdot hcdots hno (by simp) hj (ih h)).walk

theorem walk_concat {n : Nat} (hi : fs.node i = some (.dir parent entries)) (hdot : name ≠ [46])
    (hdots : name ≠ [46, 46])
    (hlast : follow = true → ∀ t, (entries name).bind fs.node ≠ some (.symlink t))
    (h : fs.walk true n cur cs = some loc) (hloc : fs.atLoc loc = some i) :
    fs.walk follow n cur (cs ++ [name]) = some (.entry i name) := by
  induction n generalizing cur cs loc with
  | zero => exact walkWith_concat hi hdot hdots hlast (fun h => by cases h) h hloc
  | succ n ih => exact walkWith_concat hi hdot hdots hlast (fun h hloc => ih h hloc) h hloc

/-- A `.` before a name can be left out. -/
theorem walkWith_dot (hrest : rest ≠ [])
    (hnext : ∀ {cur cs}, next cur (cs ++ [46] :: rest) = some loc →
      next cur (cs ++ rest) = some loc)
    (h : fs.walkWith next follow cur (cs ++ [46] :: rest) = some loc) :
    fs.walkWith next follow cur (cs ++ rest) = some loc := by
  induction cs generalizing cur with
  | nil =>
    cases walkWith_step h with
    | stay _ h => exact h
    | link _ hdot | jump _ hdot | last _ hdot | down _ hdot => exact absurd rfl hdot
  | cons c cs ih =>
    rw [List.cons_append] at h ⊢
    generalize hlong : cs ++ [46] :: rest = long at h
    cases walkWith_step h with
    | stay hnode h => exact (WalkStep.stay hnode (ih (hlong ▸ h))).walk
    | up hnode h => exact (WalkStep.up hnode (ih (hlong ▸ h))).walk
    | link | last => simp at hlong
    | jump hnode hdot hdots hlink hgo ht h =>
      refine (WalkStep.jump hnode hdot hdots hlink (by simp [hrest]) ht ?_).walk
      rw [← hlong, ← List.append_assoc] at h
      rw [← List.append_assoc]
      exact hnext h
    | down hnode hdot hdots hno hcs hi h =>
      exact (WalkStep.down hnode hdot hdots hno (by simp [hrest]) hi (ih (hlong ▸ h))).walk

theorem walk_dot {n : Nat} (hrest : rest ≠ [])
    (h : fs.walk follow n cur (cs ++ [46] :: rest) = some loc) :
    fs.walk follow n cur (cs ++ rest) = some loc := by
  induction n generalizing cur cs with
  | zero => exact walkWith_dot hrest (fun h => by cases h) h
  | succ n ih => exact walkWith_dot hrest (fun h => ih h) h

end

/-! ## 2. Paths -/

variable {i cwd : Ino} {name p : Bytes}

/-- The names of a path with one name more. -/
theorem comps_concat (p : Bytes) (hne : name ≠ []) (hname : ∀ b ∈ name, b ≠ 47) :
    comps (p ++ 47 :: name) = comps p ++ [name] := by
  rw [comps, tokens_append_sep (by decide), tokens_run hne fun b hb => by simpa using hname b hb,
    comps]

theorem slash_concat (p : Bytes) (hne : name ≠ []) (hname : ∀ b ∈ name, b ≠ 47) :
    slash (p ++ 47 :: name) = false := by
  obtain ⟨q, b, rfl⟩ : ∃ q b, name = q ++ [b] :=
    ⟨name.dropLast, name.getLast hne, (List.dropLast_append_getLast hne).symm⟩
  have hb : b ≠ 47 := hname b (by simp)
  rw [slash, ← List.cons_append, ← List.append_assoc, List.getLast?_concat]
  simpa using hb

/-- A name that stands for no symbolic link, or is not followed. -/
theorem walk_comps {parent : Ino} {entries : Bytes → Option Ino} (follow : Bool)
    (hi : fs.node i = some (.dir parent entries)) (hname : IsName name)
    (hlast : follow = true → ∀ t, (entries name).bind fs.node ≠ some (.symlink t))
    (h : fs.target cwd p = some i) :
    p ≠ [] ∧ fs.walk follow maxLinks (fs.start cwd (p ++ 47 :: name)) (comps (p ++ 47 :: name)) =
      some (.entry i name) := by
  obtain ⟨hne, hdot, hdots, hbytes⟩ := hname
  rw [target_eq] at h
  obtain ⟨loc, hreach, hloc⟩ := Option.bind_eq_some_iff.mp h
  unfold reach at hreach
  split at hreach
  · cases hreach
  · rename_i hp
    have hstart : fs.start cwd (p ++ 47 :: name) = fs.start cwd p := by
      obtain ⟨b, q, rfl⟩ := List.exists_cons_of_ne_nil hp
      rfl
    have hwalk := walk_concat hi hdot hdots hlast hreach hloc
    refine ⟨hp, ?_⟩
    rw [hstart, comps_concat p hne fun b hb => (hbytes b hb).2]
    unfold steps at hwalk
    split at hwalk
    · rw [List.append_assoc, List.singleton_append] at hwalk
      exact walk_dot (by simp) hwalk
    · exact hwalk

/-- The entry itself. -/
theorem locate_concat (hdir : fs.isDir i = true) (hname : IsName name)
    (h : fs.target cwd p = some i) : fs.locate cwd (p ++ 47 :: name) = some (.entry i name) := by
  obtain ⟨parent, entries, hi⟩ := exists_of_isDir hdir
  obtain ⟨-, hwalk⟩ := walk_comps false hi hname (fun h => by cases h) h
  rw [locate, if_neg (by simp), hwalk]

/-- The directory that the entry stands for. -/
theorem target_concat {j : Ino} (hname : IsName name) (h : fs.target cwd p = some i)
    (hj : fs.lookup i name = some j) (hdir : fs.isDir j = true) :
    fs.target cwd (p ++ 47 :: name) = some j := by
  obtain ⟨parent, entries, hi⟩ := exists_of_isDir (isDir_of_lookup hj)
  obtain ⟨parent', entries', hnode⟩ := exists_of_isDir hdir
  have hent : entries name = some j := by simpa [lookup, hi] using hj
  have hlast : ∀ t, (entries name).bind fs.node ≠ some (.symlink t) := by
    intro t ht
    rw [hent, Option.bind_some, hnode] at ht
    cases ht
  obtain ⟨-, hwalk⟩ := walk_comps true hi hname (fun _ => hlast) h
  have hslash : slash (p ++ 47 :: name) = false :=
    slash_concat p hname.1 fun b hb => (hname.2.2.2 b hb).2
  rw [target_eq, reach, if_neg (by simp), steps, if_neg (by simp [hslash]), hwalk]
  exact hj

end FileSys

end PosixLab
