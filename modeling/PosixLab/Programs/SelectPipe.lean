/-
# A parent that reads from three children

In `selectpipe.c` each of three children writes four messages into a pipe of its own and exits.
The parent waits with `select` until something can be read, reads one message from each pipe that
was ready, collects one child that has exited, and returns when there is none left to collect.
The children run at any time in between.

So behind the last collection there is one more round, and it takes one message from each pipe.
The parent has then printed everything exactly if at most one message of each child was still
unread (`drained_iff`).
-/
import PosixLab.Basis.CString
import PosixLab.Basis.Runs
import Mathlib.Data.Fintype.Basic
import Mathlib.Data.List.DropRight

namespace PosixLab.Programs

open PosixLab

/-! ## 1. The program -/

/-- The index of a child and of its pipe. -/
abbrev Child := Fin 3

/-- There are children, so that their indices can be written as numerals. -/
local instance neZeroChildren : NeZero 3 := ⟨by decide⟩

/-- The texts that a child writes, one with each call of `write`. -/
def childTexts : List Bytes :=
  [utf8 "Hello, parent!", utf8 "Hello, parent!", utf8 "Hello, parent!", utf8 "Bye, parent!"]

/-- Where the parent stands, named after what it does next. -/
inductive ParentPc
  | select
  | stdin
  | check (i : Child)
  | waitpid
  | returned
deriving DecidableEq

/-- The parent and the set that `select` has given it, the messages in the pipes, how many of
them each child has written, the children that have exited, and those that were collected. -/
structure PipeSys where
  pc : ParentPc
  set : Finset Child
  pipes : Child → List Bytes
  sent : Child → Nat
  exited : Finset Child
  collected : Finset Child

def PipeSys.init : PipeSys := ⟨.select, ∅, fun _ => [], fun _ => 0, ∅, ∅⟩

/-- Nobody can write into the pipe any more: its own child and the later ones, which have
inherited it, have exited. -/
def PipeSys.closed (s : PipeSys) (i : Child) : Bool := decide (∀ c, i ≤ c → c ∈ s.exited)

/-- A `read` of the pipe returns at once. -/
def PipeSys.readable (s : PipeSys) (i : Child) : Bool := s.pipes i != [] || s.closed i

/-- A step of child `c`, or of the parent. -/
inductive PipeAction
  | write (c : Child)
  | exit (c : Child)
  /-- `select` returns; `stdin` when there is input to read -/
  | select (stdin : Bool)
  | stdin
  | check
  /-- `waitpid` returns a child, or 0 or -1 -/
  | waitpid (c : Option Child)

/-- What a child writes, the parent prints, and whom it collects. -/
inductive PipeEvent
  | wrote (c : Child) (text : Bytes)
  | printed (c : Child) (text : Bytes)
  | collected (c : Child)
deriving DecidableEq

/-- The rest of the loop over the pipes. -/
def nextCheck (i : Child) : ParentPc :=
  match i with
  | 0 => .check 1
  | 1 => .check 2
  | 2 => .waitpid

/-- One step. -/
def pipeStep (s : PipeSys) : PipeAction → Option (PipeSys × List PipeEvent)
  | .write c =>
    if c ∈ s.exited then none
    else
      match childTexts[s.sent c]? with
      | some text =>
        some ({ s with
          pipes := Function.update s.pipes c (s.pipes c ++ [text])
          sent := Function.update s.sent c (s.sent c + 1) }, [.wrote c text])
      | none => none
  | .exit c =>
    if c ∉ s.exited ∧ s.sent c = childTexts.length then
      some ({ s with exited := insert c s.exited }, [])
    else none
  | .select stdin =>
    let set := Finset.univ.filter fun i => s.readable i = true
    if s.pc = .select ∧ (stdin = true ∨ set.Nonempty) then some ({ s with pc := .stdin, set }, [])
    else none
  | .stdin => if s.pc = .stdin then some ({ s with pc := .check 0 }, []) else none
  | .check =>
    match s.pc with
    | .check i =>
      if i ∈ s.set then
        match s.pipes i with
        | text :: rest =>
          some ({ s with pc := nextCheck i, pipes := Function.update s.pipes i rest },
            [.printed i text])
        -- at the end of the pipe `read` returns 0, else it waits
        | [] => if s.closed i then some ({ s with pc := nextCheck i }, []) else none
      else some ({ s with pc := nextCheck i }, [])
    | _ => none
  | .waitpid (some c) =>
    if s.pc = .waitpid ∧ c ∈ s.exited ∧ c ∉ s.collected then
      some ({ s with pc := .select, collected := insert c s.collected }, [.collected c])
    else none
  | .waitpid none =>
    if s.pc = .waitpid then
      if s.collected = Finset.univ then some ({ s with pc := .returned }, [])
      else if s.exited ⊆ s.collected then some ({ s with pc := .select }, []) else none
    else none

/-- Each step, with its guard and its effect. -/
inductive PipeMove (s : PipeSys) : PipeAction → PipeSys → List PipeEvent → Prop
  | write (c : Child) (text : Bytes) (hc : c ∉ s.exited) :
      PipeMove s (.write c)
        { s with
          pipes := Function.update s.pipes c (s.pipes c ++ [text])
          sent := Function.update s.sent c (s.sent c + 1) } [.wrote c text]
  | exit (c : Child) : PipeMove s (.exit c) { s with exited := insert c s.exited } []
  | select (stdin : Bool) (hpc : s.pc = .select) :
      PipeMove s (.select stdin)
        { s with pc := .stdin, set := Finset.univ.filter fun i => s.readable i = true } []
  | stdin (hpc : s.pc = .stdin) : PipeMove s .stdin { s with pc := .check 0 } []
  | print (i : Child) (text : Bytes) (rest : List Bytes) (hpc : s.pc = .check i)
      (hi : i ∈ s.set) (hpipe : s.pipes i = text :: rest) :
      PipeMove s .check
        { s with pc := nextCheck i, pipes := Function.update s.pipes i rest } [.printed i text]
  | pass (i : Child) (hpc : s.pc = .check i) (hi : i ∈ s.set → s.pipes i = []) :
      PipeMove s .check { s with pc := nextCheck i } []
  | collect (c : Child) (hpc : s.pc = .waitpid) (hc : c ∈ s.exited) (hnew : c ∉ s.collected) :
      PipeMove s (.waitpid (some c))
        { s with pc := .select, collected := insert c s.collected } [.collected c]
  | again (hpc : s.pc = .waitpid) (hsome : s.collected ≠ Finset.univ) :
      PipeMove s (.waitpid none) { s with pc := .select } []
  | ret (hpc : s.pc = .waitpid) (hall : s.collected = Finset.univ) :
      PipeMove s (.waitpid none) { s with pc := .returned } []

theorem pipeStep_move {s s' : PipeSys} {a : PipeAction} {ev : List PipeEvent}
    (h : pipeStep s a = some (s', ev)) : PipeMove s a s' ev := by
  cases a with
  | write c =>
    simp only [pipeStep] at h
    split at h
    · cases h
    · rename_i hc
      split at h
      · cases h
        exact .write c _ hc
      · cases h
  | exit c =>
    simp only [pipeStep] at h
    split at h
    · cases h
      exact .exit c
    · cases h
  | select stdin =>
    simp only [pipeStep] at h
    split at h
    · rename_i hs
      cases h
      exact .select stdin hs.1
    · cases h
  | stdin =>
    simp only [pipeStep] at h
    split at h
    · rename_i hpc
      cases h
      exact .stdin hpc
    · cases h
  | check =>
    simp only [pipeStep] at h
    split at h
    · rename_i i hpc
      split at h
      · rename_i hi
        split at h
        · rename_i text rest hpipe
          cases h
          exact .print i text rest hpc hi hpipe
        · rename_i hpipe
          split at h
          · cases h
            exact .pass i hpc fun _ => hpipe
          · cases h
      · rename_i hi
        cases h
        exact .pass i hpc fun hmem => absurd hmem hi
    · cases h
  | waitpid c =>
    cases c with
    | some c =>
      simp only [pipeStep] at h
      split at h
      · rename_i hc
        cases h
        exact .collect c hc.1 hc.2.1 hc.2.2
      · cases h
    | none =>
      simp only [pipeStep] at h
      split at h
      · rename_i hpc
        split at h
        · rename_i hall
          cases h
          exact .ret hpc hall
        · rename_i hsome
          split at h
          · cases h
            exact .again hpc hsome
          · cases h
      · cases h

/-! ## 2. What is written and printed -/

def PipeEvent.wroteBy (c : Child) : PipeEvent → Option Bytes
  | .wrote d text => if d = c then some text else none
  | _ => none

def PipeEvent.printedOf (c : Child) : PipeEvent → Option Bytes
  | .printed d text => if d = c then some text else none
  | _ => none

def PipeEvent.isCollected : PipeEvent → Bool
  | .collected _ => true
  | _ => false

/-- The messages that a child has written. -/
def wroteBy (c : Child) (log : List PipeEvent) : List Bytes := log.filterMap (PipeEvent.wroteBy c)

/-- The messages of a child that the parent has printed. -/
def printedOf (c : Child) (log : List PipeEvent) : List Bytes :=
  log.filterMap (PipeEvent.printedOf c)

/-- The log up to the last collection. -/
def untilCollected (log : List PipeEvent) : List PipeEvent := log.rdropWhile (!·.isCollected)

/-- When the last child was collected, at most one message of each child was still unread. -/
def CollectedLate (log : List PipeEvent) : Prop :=
  ∀ c, (wroteBy c (untilCollected log)).length ≤ (printedOf c (untilCollected log)).length + 1

instance (log : List PipeEvent) : Decidable (CollectedLate log) :=
  inferInstanceAs (Decidable (∀ _, _))

theorem wroteBy_append (c : Child) (log ev : List PipeEvent) :
    wroteBy c (log ++ ev) = wroteBy c log ++ wroteBy c ev := List.filterMap_append

theorem printedOf_append (c : Child) (log ev : List PipeEvent) :
    printedOf c (log ++ ev) = printedOf c log ++ printedOf c ev := List.filterMap_append

theorem untilCollected_append (log : List PipeEvent) (c : Child) {post : List PipeEvent}
    (hpost : ∀ e ∈ post, e.isCollected = false) :
    untilCollected (log ++ .collected c :: post) = log ++ [.collected c] := by
  have hdrop : post.reverse.dropWhile (!PipeEvent.isCollected ·) = [] := by
    rw [List.dropWhile_eq_nil_iff]
    intro e he
    simp [hpost e (List.mem_reverse.mp he)]
  rw [untilCollected, List.rdropWhile, List.reverse_append, List.reverse_cons, List.append_assoc,
    List.dropWhile_append, hdrop]
  simp [PipeEvent.isCollected]

/-! ## 3. What the steps keep -/

/-- The messages in a pipe are those that were written and not yet printed, and only children that
have exited are collected. -/
structure PipeKept (log : List PipeEvent) (s : PipeSys) : Prop where
  balance : ∀ c, wroteBy c log = printedOf c log ++ s.pipes c
  collected : s.collected ⊆ s.exited
  returned : s.pc = .returned → s.collected = Finset.univ

theorem pipeKept_init : PipeKept [] .init :=
  ⟨fun _ => rfl, Finset.Subset.refl _, fun h => by cases h⟩

theorem nextCheck_ne_returned (i : Child) : nextCheck i ≠ .returned := by
  revert i
  decide

theorem PipeKept.step {log ev : List PipeEvent} {s s' : PipeSys} {a : PipeAction}
    (h : PipeKept log s) (hm : PipeMove s a s' ev) : PipeKept (log ++ ev) s' := by
  have hsame : ∀ {ev : List PipeEvent}, (∀ c, wroteBy c ev = []) → (∀ c, printedOf c ev = []) →
      ∀ c, wroteBy c (log ++ ev) = printedOf c (log ++ ev) ++ s.pipes c := by
    intro ev hw hp c
    rw [wroteBy_append, printedOf_append, hw, hp, List.append_nil, List.append_nil, h.balance]
  cases hm with
  | write c text hc =>
    refine ⟨fun d => ?_, h.collected, h.returned⟩
    rw [wroteBy_append, printedOf_append, h.balance]
    by_cases hd : d = c
    · subst hd
      simp [wroteBy, printedOf, PipeEvent.wroteBy, PipeEvent.printedOf]
    · simp [wroteBy, printedOf, PipeEvent.wroteBy, PipeEvent.printedOf, hd, Ne.symm hd]
  | print i text rest hpc hi hpipe =>
    refine ⟨fun d => ?_, h.collected, fun hret => absurd hret (nextCheck_ne_returned i)⟩
    rw [wroteBy_append, printedOf_append, h.balance]
    by_cases hd : d = i
    · subst hd
      simp [wroteBy, printedOf, PipeEvent.wroteBy, PipeEvent.printedOf, hpipe]
    · simp [wroteBy, printedOf, PipeEvent.wroteBy, PipeEvent.printedOf, hd, Ne.symm hd]
  | exit c =>
    exact ⟨hsame (fun _ => rfl) fun _ => rfl, h.collected.trans (Finset.subset_insert _ _),
      h.returned⟩
  | select stdin hpc | stdin hpc | again hpc hsome =>
    exact ⟨hsame (fun _ => rfl) fun _ => rfl, h.collected, fun hret => by cases hret⟩
  | pass i hpc hi =>
    exact ⟨hsame (fun _ => rfl) fun _ => rfl, h.collected,
      fun hret => absurd hret (nextCheck_ne_returned i)⟩
  | collect c hpc hc hnew =>
    exact ⟨hsame (fun _ => rfl) fun _ => rfl, Finset.insert_subset hc h.collected,
      fun hret => by cases hret⟩
  | ret hpc hall => exact ⟨hsame (fun _ => rfl) fun _ => rfl, h.collected, fun _ => hall⟩

/-- In the round behind the last collection, with the messages that were unread then: each pipe
that the parent is past has lost the first of them. -/
def LastRound (unread : Child → List Bytes) (s : PipeSys) : Prop :=
  match s.pc with
  | .select => s.pipes = unread
  | .stdin => s.set = Finset.univ ∧ s.pipes = unread
  | .check i =>
    s.set = Finset.univ ∧ ∀ c, s.pipes c = if c < i then (unread c).tail else unread c
  | .waitpid | .returned => ∀ c, s.pipes c = (unread c).tail

/-- What holds from the last collection on. -/
def Draining (log : List PipeEvent) (s : PipeSys) : Prop :=
  s.collected = Finset.univ → ∃ pre c post unread,
    log = pre ++ .collected c :: post ∧ (∀ e ∈ post, e.isCollected = false) ∧
    (∀ d, wroteBy d pre = printedOf d pre ++ unread d) ∧ LastRound unread s

/-- Going on in the loop over the pipes. -/
theorem lastRound_next {unread : Child → List Bytes} {s : PipeSys} {i : Child}
    {pipes : Child → List Bytes} (hset : s.set = Finset.univ)
    (hpipes : ∀ c, s.pipes c = if c < i then (unread c).tail else unread c)
    (hnext : pipes i = (s.pipes i).tail) (hother : ∀ c, c ≠ i → pipes c = s.pipes c) :
    LastRound unread { s with pc := nextCheck i, pipes } := by
  have hnew : ∀ c, pipes c = if c ≤ i then (unread c).tail else unread c := by
    intro c
    by_cases hc : c = i
    · subst hc
      rw [hnext, hpipes, if_neg (lt_irrefl _), if_pos (le_refl _)]
    · rw [hother c hc, hpipes]
      exact if_congr ⟨le_of_lt, fun hle => lt_of_le_of_ne hle hc⟩ rfl rfl
  have hthree : ∀ i : Child, i = 0 ∨ i = 1 ∨ i = 2 := by decide
  have hzero : ∀ c : Child, c ≤ 0 ↔ c < 1 := by decide
  have hone : ∀ c : Child, c ≤ 1 ↔ c < 2 := by decide
  obtain rfl | rfl | rfl := hthree i
  · exact ⟨hset, fun c => (hnew c).trans (if_congr (hzero c) rfl rfl)⟩
  · exact ⟨hset, fun c => (hnew c).trans (if_congr (hone c) rfl rfl)⟩
  · exact fun c => (hnew c).trans (if_pos (Fin.le_last c))

theorem Draining.step {log ev : List PipeEvent} {s s' : PipeSys} {a : PipeAction}
    (h : Draining log s) (hk : PipeKept log s) (hm : PipeMove s a s' ev) :
    Draining (log ++ ev) s' := by
  -- what a step of the last round adds to the log is no collection
  have hgo : ∀ {ev : List PipeEvent} {s' : PipeSys}, (∀ e ∈ ev, e.isCollected = false) →
      (∀ unread, LastRound unread s → LastRound unread s') → s.collected = Finset.univ →
      ∃ pre c post unread, log ++ ev = pre ++ .collected c :: post ∧
        (∀ e ∈ post, e.isCollected = false) ∧
        (∀ d, wroteBy d pre = printedOf d pre ++ unread d) ∧ LastRound unread s' := by
    intro ev s' hev hround hall
    obtain ⟨pre, c, post, unread, rfl, hpost, hun, hlast⟩ := h hall
    refine ⟨pre, c, post ++ ev, unread, by simp, fun e he => ?_, hun, hround unread hlast⟩
    rcases List.mem_append.mp he with he | he
    · exact hpost e he
    · exact hev e he
  have hnone : ∀ e ∈ ([] : List PipeEvent), e.isCollected = false := fun e he => by cases he
  have hexited : s.collected = Finset.univ → ∀ c, c ∈ s.exited :=
    fun hall c => hk.collected (hall ▸ Finset.mem_univ c)
  cases hm with
  | write c text hc => exact fun hall => absurd (hexited hall c) hc
  | exit c =>
    refine fun hall => hgo hnone (fun unread hround => ?_) hall
    exact hround
  | select stdin hpc =>
    intro hall
    refine hgo hnone (fun unread hround => ?_) hall
    rw [LastRound, hpc] at hround
    refine ⟨Finset.filter_true_of_mem fun i _ => ?_, hround⟩
    have hclosed : s.closed i = true := decide_eq_true fun c _ => hexited hall c
    simp [PipeSys.readable, hclosed]
  | stdin hpc =>
    refine fun hall => hgo hnone (fun unread hround => ?_) hall
    rw [LastRound, hpc] at hround
    exact ⟨hround.1, fun c => by rw [if_neg (Fin.not_lt_zero c), ← hround.2]⟩
  | print i text rest hpc hi hpipe =>
    refine fun hall => hgo (fun e he => ?_) (fun unread hround => ?_) hall
    · rw [List.mem_singleton.mp he]
      rfl
    · rw [LastRound, hpc] at hround
      refine lastRound_next hround.1 hround.2 ?_ fun c hc => Function.update_of_ne hc _ _
      rw [Function.update_self, hpipe, List.tail_cons]
  | pass i hpc hi =>
    refine fun hall => hgo hnone (fun unread hround => ?_) hall
    rw [LastRound, hpc] at hround
    refine lastRound_next hround.1 hround.2 ?_ fun c _ => rfl
    rw [hi (hround.1 ▸ Finset.mem_univ i), List.tail_nil]
  | collect c hpc hc hnew => exact fun _ => ⟨log, c, [], s.pipes, rfl, hnone, hk.balance, rfl⟩
  | again hpc hsome => exact fun hall => absurd hall hsome
  | ret hpc hall =>
    refine fun _ => hgo hnone (fun unread hround => ?_) hall
    rw [LastRound, hpc] at hround
    exact hround

/-! ## 4. What is left -/

/-- For every interleaving of the children with the parent, and input at any time: when the parent
returns it has printed every message that a child wrote, if and only if at most one message of
each child was unread when the last child was collected. -/
theorem drained_iff {log : List PipeEvent} {s : PipeSys} (h : Runs pipeStep anyStep .init log s)
    (hret : s.pc = .returned) :
    (∀ c, printedOf c log = wroteBy c log) ↔ CollectedLate log := by
  obtain ⟨hk, hd⟩ : PipeKept log s ∧ Draining log s := by
    refine h.invariant (I := fun log s => PipeKept log s ∧ Draining log s) ?_ ?_
    · exact ⟨pipeKept_init, fun hall => absurd hall (by decide)⟩
    · intro log s a s' ev _ ih _ hs
      exact ⟨ih.1.step (pipeStep_move hs), ih.2.step ih.1 (pipeStep_move hs)⟩
  obtain ⟨pre, c, post, unread, rfl, hpost, hun, hlast⟩ := hd (hk.returned hret)
  have hleft : ∀ d, s.pipes d = (unread d).tail := by
    rw [LastRound, hret] at hlast
    exact hlast
  rw [CollectedLate, untilCollected_append pre c hpost]
  refine forall_congr' fun d => ?_
  have hw : wroteBy d (pre ++ [.collected c]) = wroteBy d pre := by
    rw [wroteBy_append]
    exact List.append_nil _
  have hp : printedOf d (pre ++ [.collected c]) = printedOf d pre := by
    rw [printedOf_append]
    exact List.append_nil _
  have htail : (unread d).tail = [] ↔ (unread d).length ≤ 1 := by
    cases unread d with
    | nil => simp
    | cons m ms => simp
  rw [hk.balance, hleft, List.self_eq_append_right, htail, hw, hp, hun, List.length_append]
  omega

/-- A child writes its messages and exits. -/
def childRun (c : Child) : List PipeAction :=
  [.write c, .write c, .write c, .write c, .exit c]

/-- The parent's steps from `select` to the last test. -/
def parentRound (stdin : Bool) : List PipeAction := [.select stdin, .stdin, .check, .check, .check]

/-- The children have exited before the parent looks. -/
def childrenFirst : List PipeAction :=
  childRun 0 ++ childRun 1 ++ childRun 2 ++
    parentRound false ++ [.waitpid (some 0)] ++ parentRound false ++ [.waitpid (some 1)] ++
    parentRound false ++ [.waitpid (some 2)] ++ parentRound false ++ [.waitpid none]

theorem drained_iff_childrenFirst : ∃ log s, Runs pipeStep anyStep .init log s ∧
    s.pc = .returned ∧ CollectedLate log ∧ ∀ c, printedOf c log = wroteBy c log := by
  obtain ⟨log, s, hrun, hp⟩ : ∃ log s, Runs pipeStep anyStep .init log s ∧
      decide (s.pc = .returned ∧ CollectedLate log) = true :=
    exists_runs_of_exec childrenFirst _ (by decide)
  obtain ⟨hret, hlate⟩ := of_decide_eq_true hp
  exact ⟨log, s, hrun, hret, hlate, (drained_iff hrun hret).mpr hlate⟩

/-- Each child runs between a `select` and the `waitpid` behind it: the parent returns with six
messages unread. -/
theorem messages_unread : ∃ log s, Runs pipeStep anyStep .init log s ∧ s.pc = .returned ∧
    ¬∀ c, printedOf c log = wroteBy c log := by
  obtain ⟨log, s, hrun, hp⟩ : ∃ log s, Runs pipeStep anyStep .init log s ∧
      decide (s.pc = .returned ∧ (printedOf 2 log).length = 1 ∧ (wroteBy 2 log).length = 4) =
        true :=
    exists_runs_of_exec
      (parentRound true ++ childRun 0 ++ [.waitpid (some 0)] ++
        parentRound false ++ childRun 1 ++ [.waitpid (some 1)] ++
        parentRound false ++ childRun 2 ++ [.waitpid (some 2)] ++
        parentRound false ++ [.waitpid none]) _ (by decide)
  obtain ⟨hret, hone, hfour⟩ := of_decide_eq_true hp
  refine ⟨log, s, hrun, hret, fun hall => ?_⟩
  rw [hall 2, hfour] at hone
  cases hone

end PosixLab.Programs
