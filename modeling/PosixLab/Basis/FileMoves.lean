/-
# Laws of links and moves

How the calls that change directory entries compose.  A file is moved by giving it the new name
and taking the old one away (`links_unlinks_iff`), and it is moved back by a second move, which
leaves everything as it was unless the first one replaced something (`renames_back_iff`), and what
stood at the new name is replaced (`Renames.replaced`).

The entries commute, so the work is in the paths: each path is resolved in the file system that
the call before has left, and must still lead to the same place.
-/
import PosixLab.Basis.FileSystem

namespace PosixLab

/-- A node with an entry put in, if it is a directory. -/
def Node.putEntry (name : Bytes) (v : Option Ino) : Node → Node
  | .dir parent entries => .dir parent (Function.update entries name v)
  | x => x

namespace FileSys

variable {fs fs' fs₁ fs₂ : FileSys} {cwd d d' i j : Ino} {name name' p old new : Bytes}
  {v v' : Option Ino}

/-! ## 1. Entries -/

theorem eq_of_node (hroot : fs.root = fs'.root) (hnode : ∀ i, fs.node i = fs'.node i) :
    fs = fs' := by
  cases fs
  cases fs'
  obtain rfl := hroot
  obtain rfl := funext hnode
  rfl

@[simp] theorem root_setEntry (fs : FileSys) (d : Ino) (name : Bytes) (v : Option Ino) :
    (fs.setEntry d name v).root = fs.root := by
  unfold setEntry
  split <;> rfl

theorem node_setEntry_self (fs : FileSys) (d : Ino) (name : Bytes) (v : Option Ino) :
    (fs.setEntry d name v).node d = (fs.node d).map (Node.putEntry name v) := by
  unfold setEntry
  split
  · rename_i parent entries hnode
    rw [node_setNode_self, hnode]
    rfl
  · rename_i hno
    rcases hnode : fs.node d with _ | x
    · rfl
    · rcases x with text | ⟨parent, entries⟩ | t
      · rfl
      · exact absurd hnode (hno parent entries)
      · rfl

/-- Different entries can be changed in any order. -/
theorem setEntry_comm (h : (d, name) ≠ (d', name')) :
    (fs.setEntry d name v).setEntry d' name' v' = (fs.setEntry d' name' v').setEntry d name v := by
  refine eq_of_node (by simp) ?_
  intro k
  by_cases hd : k = d
  · subst hd
    by_cases hd' : k = d'
    · subst hd'
      have hname : name ≠ name' := by
        rintro rfl
        exact h rfl
      rw [node_setEntry_self, node_setEntry_self, node_setEntry_self, node_setEntry_self,
        Option.map_map, Option.map_map]
      congr 1
      funext x
      rcases x with text | ⟨parent, entries⟩ | t
      · rfl
      · exact congrArg (Node.dir parent) (Function.update_comm hname v v' entries)
      · rfl
    · rw [node_setEntry_of_ne hd', node_setEntry_self, node_setEntry_self, node_setEntry_of_ne hd']
  · rw [node_setEntry_of_ne hd]
    by_cases hd' : k = d'
    · subst hd'
      rw [node_setEntry_self, node_setEntry_self, node_setEntry_of_ne hd]
    · rw [node_setEntry_of_ne hd', node_setEntry_of_ne hd', node_setEntry_of_ne hd]

/-- The last change of an entry counts. -/
theorem setEntry_setEntry (fs : FileSys) (d : Ino) (name : Bytes) (v v' : Option Ino) :
    (fs.setEntry d name v).setEntry d name v' = fs.setEntry d name v' := by
  refine eq_of_node (by simp) ?_
  intro k
  by_cases hd : k = d
  · subst hd
    rw [node_setEntry_self, node_setEntry_self, node_setEntry_self, Option.map_map]
    congr 1
    funext x
    rcases x with text | ⟨parent, entries⟩ | t
    · rfl
    · change Node.dir parent (Function.update (Function.update entries name v) name v') = _
      rw [Function.update_idem]
      rfl
    · rfl
  · rw [node_setEntry_of_ne hd, node_setEntry_of_ne hd, node_setEntry_of_ne hd]

/-- Nothing is changed by the entry that is there. -/
theorem setEntry_lookup (h : fs.lookup d name = v) : fs.setEntry d name v = fs := by
  refine eq_of_node (by simp) ?_
  intro k
  by_cases hd : k = d
  · subst hd
    rw [node_setEntry_self]
    rcases hnode : fs.node k with _ | x
    · rfl
    · rcases x with text | ⟨parent, entries⟩ | t
      · rfl
      · have hv : entries name = v := by rwa [lookup_of_node hnode] at h
        rw [Option.map_some, Node.putEntry, ← hv, Function.update_eq_self]
      · rfl
  · exact node_setEntry_of_ne hd name v

@[simp] theorem isDir_setEntry (fs : FileSys) (d : Ino) (name : Bytes) (v : Option Ino) (i : Ino) :
    (fs.setEntry d name v).isDir i = fs.isDir i := by
  by_cases hi : i = d
  · subst hi
    unfold isDir
    rw [node_setEntry_self]
    rcases fs.node i with _ | (text | ⟨parent, entries⟩ | t) <;> rfl
  · unfold isDir
    rw [node_setEntry_of_ne hi]

/-- Moving what is no directory. -/
theorem move_eq (hi : fs.isDir i = false) :
    fs.move d name d' name' i = (fs.setEntry d name none).setEntry d' name' (some i) := by
  have hdir : ((fs.setEntry d name none).setEntry d' name' (some i)).isDir i = false := by
    rw [isDir_setEntry, isDir_setEntry, hi]
  unfold move
  simp only
  split
  · rename_i parent entries hnode
    rw [isDir, hnode] at hdir
    exact absurd hdir (by simp)
  · rfl

/-! ## 2. Paths -/

/-- What stands at an entry, if anything, is neither a directory nor a symbolic link, so no path
goes on from there. -/
def Plain (fs : FileSys) (d : Ino) (name : Bytes) : Prop :=
  ∀ i, fs.lookup d name = some i → fs.isDir i = false ∧ ∀ t, fs.node i ≠ some (.symlink t)

theorem symlink_setEntry (t : Bytes) :
    (fs.setEntry d name v).node i = some (.symlink t) ↔ fs.node i = some (.symlink t) := by
  by_cases hi : i = d
  · subst hi
    rw [node_setEntry_self]
    rcases fs.node i with _ | (text | ⟨parent, entries⟩ | t') <;> simp [Node.putEntry]
  · rw [node_setEntry_of_ne hi]

/-- A directory keeps its other entries. -/
theorem dir_setEntry (d : Ino) (name : Bytes) (v : Option Ino) {parent : Ino}
    {entries : Bytes → Option Ino} {k : Ino} (hnode : fs.node k = some (.dir parent entries)) :
    ∃ entries', (fs.setEntry d name v).node k = some (.dir parent entries') ∧
      ∀ c, (k, c) ≠ (d, name) → entries' c = entries c := by
  obtain ⟨parent', entries', hnode'⟩ : ∃ parent' entries',
      (fs.setEntry d name v).node k = some (.dir parent' entries') :=
    exists_of_isDir (by rw [isDir_setEntry, isDir, hnode])
  have hparent : parent' = parent := by
    by_cases hk : k = d
    · subst hk
      rw [node_setEntry_self, hnode] at hnode'
      simp only [Option.map_some, Node.putEntry, Option.some.injEq, Node.dir.injEq] at hnode'
      exact hnode'.1.symm
    · rw [node_setEntry_of_ne hk, hnode] at hnode'
      simp only [Option.some.injEq, Node.dir.injEq] at hnode'
      exact hnode'.1.symm
  subst hparent
  refine ⟨entries', hnode', ?_⟩
  intro c hc
  rw [← lookup_of_node hnode', ← lookup_of_node hnode]
  exact lookup_setEntry_of_ne hc v

section

variable {next next' : Ino → List Bytes → Option Loc} {loc : Loc}

theorem isDir_of_walkWith_cons {follow : Bool} {cur : Ino} {c : Bytes} {cs : List Bytes}
    (h : fs.walkWith next follow cur (c :: cs) = some loc) : fs.isDir cur = true := by
  rcases walkWith_step h with ⟨hnode, -⟩ | ⟨hnode, -⟩ | ⟨hnode, -⟩ | ⟨hnode, -⟩ | ⟨hnode, -⟩ |
    ⟨hnode, -⟩ <;> rw [isDir, hnode]

/-- Paths that do not follow their last link lead where they led before an entry was changed, if
none of them could go on from there. -/
theorem walkWith_setEntry (h : fs.Plain d name)
    (hnext : ∀ {cur cs}, next cur cs = some loc → next' cur cs = some loc)
    {cur : Ino} {cs : List Bytes} (hw : fs.walkWith next false cur cs = some loc) :
    (fs.setEntry d name v).walkWith next' false cur cs = some loc := by
  -- another entry is a link as it was
  have hsame : ∀ {c t} {entries entries' : Bytes → Option Ino}, entries' c = entries c →
      ((entries' c).bind (fs.setEntry d name v).node = some (.symlink t) ↔
        (entries c).bind fs.node = some (.symlink t)) := by
    intro c t entries entries' heq
    rw [heq]
    rcases entries c with _ | j
    · exact Iff.rfl
    · exact symlink_setEntry t
  -- and this one was no link on the way
  have hlink : ∀ {k parent : Ino} {c t : Bytes} {entries : Bytes → Option Ino},
      fs.node k = some (.dir parent entries) → (entries c).bind fs.node = some (.symlink t) →
        (k, c) ≠ (d, name) := by
    intro k parent c t entries hnode ht heq
    obtain ⟨rfl, rfl⟩ := Prod.mk.inj heq
    obtain ⟨j, hj, ht⟩ := Option.bind_eq_some_iff.mp ht
    exact (h j (by rw [lookup_of_node hnode, hj])).2 t ht
  induction cs generalizing cur with
  | nil => exact hw
  | cons c cs ih =>
    cases walkWith_step hw with
    | stay hnode hw =>
      obtain ⟨entries', hnode', -⟩ := dir_setEntry d name v hnode
      exact (WalkStep.stay hnode' (ih hw)).walk
    | up hnode hw =>
      obtain ⟨entries', hnode', -⟩ := dir_setEntry d name v hnode
      exact (WalkStep.up hnode' (ih hw)).walk
    | link hnode hdot hdots ht hfollow =>
      obtain ⟨entries', hnode', hent⟩ := dir_setEntry d name v hnode
      have heq := hent c (hlink hnode ht)
      exact (WalkStep.link hnode' hdot hdots ((hsame heq).mpr ht) hfollow).walk
    | jump hnode hdot hdots ht hgo hne hw =>
      obtain ⟨entries', hnode', hent⟩ := dir_setEntry d name v hnode
      have heq := hent c (hlink hnode ht)
      refine (WalkStep.jump hnode' hdot hdots ((hsame heq).mpr ht) hgo hne ?_).walk
      rw [start, root_setEntry]
      exact hnext hw
    | last hnode hdot hdots hno =>
      obtain ⟨entries', hnode', hent⟩ := dir_setEntry d name v hnode
      -- the new entry may be a link, which is not followed
      by_cases hnew : ∃ t, (entries' c).bind (fs.setEntry d name v).node = some (.symlink t)
      · obtain ⟨t, ht⟩ := hnew
        exact (WalkStep.link hnode' hdot hdots ht rfl).walk
      · exact (WalkStep.last hnode' hdot hdots fun t ht => hnew ⟨t, ht⟩).walk
    | down hnode hdot hdots hno hcs hj hw =>
      obtain ⟨entries', hnode', hent⟩ := dir_setEntry d name v hnode
      -- the walk goes on in a directory, which this entry is not
      have hc : (cur, c) ≠ (d, name) := by
        intro heq
        obtain ⟨rfl, rfl⟩ := Prod.mk.inj heq
        have hplain := (h _ (by rw [lookup_of_node hnode, hj])).1
        obtain ⟨b, bs, rfl⟩ := List.exists_cons_of_ne_nil hcs
        rw [isDir_of_walkWith_cons hw] at hplain
        exact absurd hplain (by simp)
      have heq := hent c hc
      refine (WalkStep.down hnode' hdot hdots ?_ hcs (heq.trans hj) (ih hw)).walk
      intro t ht
      exact hno t ((hsame heq).mp ht)

theorem locate_setEntry (h : fs.Plain d name) (v : Option Ino)
    (hp : fs.locate cwd p = some loc) : (fs.setEntry d name v).locate cwd p = some loc := by
  have hwalk : ∀ n {cur cs}, fs.walk false n cur cs = some loc →
      (fs.setEntry d name v).walk false n cur cs = some loc := by
    intro n
    induction n with
    | zero => exact walkWith_setEntry h fun hno => absurd hno (by simp)
    | succ n ih => exact walkWith_setEntry h ih
  unfold locate at hp ⊢
  split at hp
  · exact absurd hp (by simp)
  · rw [if_neg ‹_›, start, root_setEntry]
    exact hwalk _ hp

/-- A path that does not follow its last link leads there still. -/
theorem Grows.locate (h : Grows fs fs')
    (hend : ∀ {d name t}, loc = .entry d name → fs.lookup d name = none →
      (fs'.lookup d name).bind fs'.node ≠ some (.symlink t))
    (hp : fs.locate cwd p = some loc) : fs'.locate cwd p = some loc := by
  have hwalk : ∀ n {cur cs}, fs.walk false n cur cs = some loc →
      fs'.walk false n cur cs = some loc := by
    intro n
    induction n with
    | zero => exact h.walkWith hend fun hno => absurd hno (by simp)
    | succ n ih => exact h.walkWith hend ih
  unfold FileSys.locate at hp ⊢
  split at hp
  · exact absurd hp (by simp)
  · rw [if_neg ‹_›, start, h.root]
    exact hwalk _ hp

end

/-! ## 3. Calls -/

/-- The path leads to an entry that is not there. -/
def Missing (fs : FileSys) (cwd : Ino) (p : Bytes) : Prop :=
  ∃ d name, fs.locate cwd p = some (.entry d name) ∧ fs.lookup d name = none

/-- What stands at the path is no directory. -/
def NoDir (fs : FileSys) (cwd : Ino) (p : Bytes) : Prop :=
  ∃ d name i, fs.entryAt cwd p = some (d, name, i) ∧ fs.isDir i = false

/-- What stands at a path stands there behind a new entry. -/
theorem entryAt_of_new (hno : fs.lookup d' name' = none) (v : Option Ino)
    (h : fs.entryAt cwd old = some (d, name, i)) :
    (fs.setEntry d' name' v).entryAt cwd old = some (d, name, i) := by
  obtain ⟨hloc, hi⟩ := entryAt_eq_some.mp h
  have hgrows := Grows.setEntry hno v
  refine entryAt_eq_some.mpr ⟨hgrows.locate ?_ hloc, hgrows.lookup hi⟩
  intro d₁ name₁ t heq hnone
  obtain ⟨rfl, rfl⟩ := Loc.entry.inj heq
  rw [hi] at hnone
  exact absurd hnone (by simp)

/-- A missing entry is another one. -/
theorem ne_of_missing (hno : fs.lookup d' name' = none) (hi : fs.lookup d name = some i) :
    (d', name') ≠ (d, name) := by
  intro heq
  obtain ⟨rfl, rfl⟩ := Prod.mk.inj heq
  rw [hno] at hi
  exact absurd hi (by simp)

/-- Linking and unlinking is moving, of what is no directory and to where there is nothing. -/
theorem links_unlinks_iff :
    (∃ fs₁, fs.Links cwd old new fs₁ ∧ fs₁.Unlinks cwd old fs') ↔
      fs.Renames cwd old new fs' ∧ fs.NoDir cwd old ∧ fs.Missing cwd new := by
  constructor
  · rintro ⟨fs₁, ⟨d, name, i, d', name', hold, hdir, hslash, hslash', hloc', hno, rfl⟩,
      ⟨d₁, name₁, i₁, hold₁, -, -, rfl⟩⟩
    have hne := ne_of_missing hno (entryAt_eq_some.mp hold).2
    obtain ⟨rfl, rfl, rfl⟩ : d = d₁ ∧ name = name₁ ∧ i = i₁ := by
      simpa using (entryAt_of_new hno (some i) hold).symm.trans hold₁
    refine ⟨⟨d, name, i, d', name', hold, hloc', fun _ => ⟨hslash, hslash'⟩,
      .inr ⟨by simp [hno], fun h => by simp [hdir] at h, fun j hj => by simp [hno] at hj, ?_⟩⟩,
      ⟨d, name, i, hold, hdir⟩, ⟨d', name', hloc', hno⟩⟩
    rw [move_eq hdir]
    exact setEntry_comm hne
  · rintro ⟨⟨d, name, i, d', name', hold, hloc', hslash, hcase⟩, ⟨d₀, name₀, i₀, hold₀, hdir⟩,
      ⟨d₁, name₁, hloc₁, hno⟩⟩
    obtain ⟨rfl, rfl, rfl⟩ : d = d₀ ∧ name = name₀ ∧ i = i₀ := by
      simpa using hold.symm.trans hold₀
    obtain ⟨rfl, rfl⟩ : d' = d₁ ∧ name' = name₁ := by simpa using hloc'.symm.trans hloc₁
    have hne := ne_of_missing hno (entryAt_eq_some.mp hold).2
    rcases hcase with ⟨hsame, -⟩ | ⟨-, -, -, rfl⟩
    · rw [hno] at hsame
      exact absurd hsame (by simp)
    · refine ⟨fs.setEntry d' name' (some i), ⟨d, name, i, d', name', hold, hdir, (hslash hdir).1,
        (hslash hdir).2, hloc', hno, rfl⟩, ⟨d, name, i, entryAt_of_new hno _ hold,
        by rw [isDir_setEntry, hdir], (hslash hdir).1, ?_⟩⟩
      rw [move_eq hdir]
      exact (setEntry_comm hne).symm

/-- The state between the two moves: paths that lead somewhere led there before. -/
theorem locate_of_moved (hfile : ∃ text, fs.data i = some text) (hi : fs.lookup d name = some i)
    (hne : (d', name') ≠ (d, name)) {loc : Loc}
    (hp : ((fs.setEntry d name none).setEntry d' name' (some i)).locate cwd p = some loc) :
    fs.locate cwd p = some loc := by
  obtain ⟨text, htext⟩ := hfile
  have hnode := data_eq_some.mp htext
  have hdir := isDir_of_lookup hi
  have hother : (fs.setEntry d name none).lookup d' name' = fs.lookup d' name' :=
    lookup_setEntry_of_ne hne none
  -- first the new name goes back to what it was, then the old one
  have hplain : ((fs.setEntry d name none).setEntry d' name' (some i)).Plain d' name' := by
    intro k hk
    rw [lookup_setEntry_self (by simpa using isDir_of_lookup hk)] at hk
    obtain rfl := Option.some.inj hk
    refine ⟨by rw [isDir_setEntry, isDir_setEntry, isDir, hnode], ?_⟩
    intro t
    rw [Ne, symlink_setEntry, symlink_setEntry, hnode]
    simp
  have hback := locate_setEntry hplain (fs.lookup d' name') hp
  rw [setEntry_setEntry, setEntry_lookup hother] at hback
  have hplain' : (fs.setEntry d name none).Plain d name := by
    intro k hk
    rw [lookup_setEntry_self hdir] at hk
    exact absurd hk (by simp)
  have hback' := locate_setEntry hplain' (some i) hback
  rwa [setEntry_setEntry, setEntry_lookup hi] at hback'

/-- A file that is moved and moved back leaves everything as it was, exactly if it did not replace
anything else. -/
theorem renames_back_iff {text : Bytes} (hold : fs.entryAt cwd old = some (d, name, i))
    (hfile : fs.data i = some text) (hgo : fs.Renames cwd old new fs₁)
    (hback : fs₁.Renames cwd new old fs₂) :
    fs₂ = fs ↔ ∀ d' name' j, fs.entryAt cwd new = some (d', name', j) → j = i := by
  obtain ⟨hloc, hi⟩ := entryAt_eq_some.mp hold
  have hdir : fs.isDir i = false := by
    rw [isDir, data_eq_some.mp hfile]
  obtain ⟨d₀, name₀, i₀, d', name', hold₀, hloc', -, hcase⟩ := hgo
  obtain ⟨rfl, rfl, rfl⟩ : d = d₀ ∧ name = name₀ ∧ i = i₀ := by simpa using hold.symm.trans hold₀
  obtain ⟨e, nm, k, e', nm', hnew, hloc₁, -, hcase'⟩ := hback
  obtain ⟨hnewloc, hk⟩ := entryAt_eq_some.mp hnew
  rcases hcase with ⟨hsame, rfl⟩ | ⟨hno, -, -, rfl⟩
  · -- both are names of one file
    obtain ⟨rfl, rfl⟩ : d' = e ∧ name' = nm := by simpa using hloc'.symm.trans hnewloc
    obtain ⟨rfl, rfl⟩ : d = e' ∧ name = nm' := by simpa using hloc.symm.trans hloc₁
    obtain rfl : i = k := by simpa using hsame.symm.trans hk
    rcases hcase' with ⟨-, rfl⟩ | ⟨hne, -⟩
    · refine iff_of_true rfl ?_
      intro d'' name'' j hj
      obtain ⟨hloc'', hj⟩ := entryAt_eq_some.mp hj
      obtain ⟨rfl, rfl⟩ : d' = d'' ∧ name' = name'' := by simpa using hloc'.symm.trans hloc''
      simpa using hj.symm.trans hsame
    · exact absurd hi hne
  · have hne : (d', name') ≠ (d, name) := by
      intro heq
      obtain ⟨rfl, rfl⟩ := Prod.mk.inj heq
      exact hno hi
    rw [move_eq hdir] at hnewloc hk hloc₁ hcase'
    obtain ⟨rfl, rfl⟩ : d' = e ∧ name' = nm := by
      simpa using hloc'.symm.trans (locate_of_moved ⟨text, hfile⟩ hi hne hnewloc)
    obtain ⟨rfl, rfl⟩ : d = e' ∧ name = nm' := by
      simpa using hloc.symm.trans (locate_of_moved ⟨text, hfile⟩ hi hne hloc₁)
    have hdir' : fs.isDir d' = true := by simpa using isDir_of_lookup hk
    rw [lookup_setEntry_self (by simpa using hdir')] at hk
    obtain rfl := Option.some.inj hk
    have hgone : ((fs.setEntry d name none).setEntry d' name' (some i)).lookup d name = none := by
      rw [lookup_setEntry_of_ne hne.symm, lookup_setEntry_self (isDir_of_lookup hi)]
    rcases hcase' with ⟨hthere, -⟩ | ⟨-, -, -, rfl⟩
    · rw [hgone] at hthere
      exact absurd hthere (by simp)
    · -- what is left is that the new name is gone
      have hend : (((fs.setEntry d name none).setEntry d' name' (some i)).move d' name' d name i) =
          fs.setEntry d' name' none := by
        rw [move_eq (by simpa using hdir), setEntry_setEntry, setEntry_comm hne, setEntry_setEntry,
          setEntry_lookup hi]
      rw [hend]
      constructor
      · intro heq d'' name'' j hj
        obtain ⟨hloc'', hj⟩ := entryAt_eq_some.mp hj
        obtain ⟨rfl, rfl⟩ : d' = d'' ∧ name' = name'' := by simpa using hloc'.symm.trans hloc''
        rw [← heq, lookup_setEntry_self hdir'] at hj
        exact absurd hj (by simp)
      · intro hall
        refine setEntry_lookup ?_
        by_contra hsome
        obtain ⟨j, hj⟩ := Option.ne_none_iff_exists'.mp hsome
        obtain rfl := hall d' name' j (entryAt_eq_some.mpr ⟨hloc', hj⟩)
        exact hno hj

/-- Whatever stood at the new name, the file stands there after the call. -/
theorem Renames.replaced {text : Bytes} (hold : fs.entryAt cwd old = some (d, name, i))
    (hfile : fs.data i = some text) (hgo : fs.Renames cwd old new fs₁)
    (hnew : fs.entryAt cwd new = some (d', name', j)) : fs₁.lookup d' name' = some i := by
  obtain ⟨d₀, name₀, i₀, e, nm, hold₀, hloc, -, hcase⟩ := hgo
  obtain ⟨rfl, rfl, rfl⟩ : d = d₀ ∧ name = name₀ ∧ i = i₀ := by simpa using hold.symm.trans hold₀
  obtain ⟨hloc', hj⟩ := entryAt_eq_some.mp hnew
  obtain ⟨rfl, rfl⟩ : e = d' ∧ nm = name' := by simpa using hloc.symm.trans hloc'
  rcases hcase with ⟨hsame, rfl⟩ | ⟨-, -, -, rfl⟩
  · exact hsame
  · have hdir : fs.isDir i = false := by rw [isDir, data_eq_some.mp hfile]
    rw [move_eq hdir, lookup_setEntry_self]
    simpa using isDir_of_lookup hj

end FileSys

end PosixLab
