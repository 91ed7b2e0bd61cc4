/-
# A chat over two pipes

In `pipe.c` a parent and its child run the same `chat_loop`, with a pipe in each direction: each
waits with `select` for input and for its pipe, passes on what is typed, and prints what it reads.
It leaves the loop at the end of its input or of its pipe, and closes its two ends.

A step is one call.  What is typed comes with the `read` of the terminal, which both processes
share.  A write waits until the pipe has room, and kills the writer if nobody has the other end
open; the end of a pipe is seen when it is empty and nobody has its write end open.

A side that tells that the connection has been closed has printed everything that the other one
has been given to pass on (`announced_has_all`), and once one side is gone the other one ends, too,
however its steps are chosen (`other_side_ends`).
-/
import PosixLab.Basis.CString
import PosixLab.Basis.Progress

namespace PosixLab.Programs

open PosixLab

/-! ## 1. The two sides -/

/-- `MSGSIZE`. -/
def chatMsgSize : Nat := 1024

/-- What a pipe has room for. -/
def pipeSize : Nat := 65536

inductive ChatSide
  | parent
  | child
deriving DecidableEq

def ChatSide.other : ChatSide → ChatSide
  | .parent => .child
  | .child => .parent

@[simp] theorem ChatSide.other_other (t : ChatSide) : t.other.other = t := by cases t <;> rfl

@[simp] theorem ChatSide.other_ne (t : ChatSide) : t.other ≠ t := by
  cases t <;> simp [ChatSide.other]

@[simp] theorem ChatSide.ne_other (t : ChatSide) : t ≠ t.other := t.other_ne.symm

theorem ChatSide.eq_or_eq_other (t u : ChatSide) : t = u ∨ t = u.other := by
  cases t <;> cases u <;> simp [ChatSide.other]

/-- Where a side stands, named after what it does next; `ready` is `FD_ISSET(read_pipe, &set)`. -/
inductive ChatPc
  | select
  | stdin (ready : Bool)
  | write (text : Bytes) (ready : Bool)
  | pipe
  | close₁
  | close₂
  | ended
  | killed
deriving DecidableEq

/-- A side: what it can read from its pipe, and which of its two ends are open. -/
structure ChatProc where
  pc : ChatPc
  inbox : Bytes
  writeOpen : Bool
  readOpen : Bool
deriving DecidableEq

abbrev PipeChat := ChatSide → ChatProc

/-- At the loops: each side has closed the ends that it does not use. -/
def PipeChat.init : PipeChat := fun _ => ⟨.select, [], true, true⟩

/-- One side goes on. -/
def PipeChat.set (s : PipeChat) (t : ChatSide) (x : ChatProc) : PipeChat := Function.update s t x

/-- `read` would not wait: there is something in the pipe, or it has come to its end. -/
def PipeChat.readable (s : PipeChat) (t : ChatSide) : Bool :=
  (s t).inbox ≠ [] ∨ (s t.other).writeOpen = false

/-- The next call of a side; `select` says whether there is input, and `stdin` what is read of it,
or that it has ended. -/
inductive PipeChatAction
  | select (t : ChatSide) (input : Bool)
  | stdin (t : ChatSide) (text : Option Bytes)
  | write (t : ChatSide)
  | pipe (t : ChatSide)
  | close (t : ChatSide)
deriving DecidableEq

/-- What is typed, passed on and printed, and the two ways in which a side can end early. -/
inductive PipeChatEvent
  | silent
  | typed (t : ChatSide) (text : Bytes)
  | wrote (t : ChatSide) (text : Bytes)
  | printed (t : ChatSide) (text : Bytes)
  | announced (t : ChatSide)
  | killed (t : ChatSide)
deriving DecidableEq

/-- Behind the part of the loop that is about the input. -/
def afterStdin (ready : Bool) : ChatPc := if ready then .pipe else .select

/-- The ends are closed in this order: the parent closes its write end first, the child its read
end. -/
def ChatProc.close₁ (x : ChatProc) : ChatSide → ChatProc
  | .parent => { x with pc := .close₂, writeOpen := false }
  | .child => { x with pc := .close₂, readOpen := false }

/-- One step. -/
def pipeChatStep (s : PipeChat) : PipeChatAction → Option (PipeChat × List PipeChatEvent)
  | .select t input =>
    if (s t).pc = .select ∧ (input = true ∨ s.readable t = true) then
      some (s.set t { s t with
        pc := if input then .stdin (s.readable t) else afterStdin (s.readable t) }, [.silent])
    else none
  | .stdin t text =>
    match (s t).pc with
    | .stdin ready =>
      match text with
      | some bs =>
        if 0 < bs.length ∧ bs.length ≤ chatMsgSize then
          some (s.set t { s t with pc := .write bs ready }, [.typed t bs])
        else none
      | none => some (s.set t { s t with pc := .close₁ }, [.silent])
    | _ => none
  | .write t =>
    match (s t).pc with
    | .write bs ready =>
      if (s t.other).readOpen = false then
        some (s.set t { s t with pc := .killed, writeOpen := false, readOpen := false },
          [.killed t])
      else if (s t.other).inbox.length + bs.length ≤ pipeSize then
        some ((s.set t { s t with pc := afterStdin ready }).set t.other
          { s t.other with inbox := (s t.other).inbox ++ bs }, [.wrote t bs])
      else none
    | _ => none
  | .pipe t =>
    if (s t).pc = .pipe then
      if (s t).inbox = [] then
        if (s t.other).writeOpen = false then
          some (s.set t { s t with pc := .close₁ }, [.announced t])
        else none
      else
        some (s.set t { s t with pc := .select, inbox := (s t).inbox.drop chatMsgSize },
          [.printed t ((s t).inbox.take chatMsgSize)])
    else none
  | .close t =>
    match (s t).pc with
    | .close₁ => some (s.set t ((s t).close₁ t), [.silent])
    | .close₂ =>
      some (s.set t { s t with pc := .ended, writeOpen := false, readOpen := false }, [.silent])
    | _ => none

/-- What a step can do. -/
inductive PipeChatMove (s : PipeChat) :
    PipeChatAction → PipeChat → List PipeChatEvent → Prop
  | select (t : ChatSide) (input : Bool) (hpc : (s t).pc = .select)
      (hready : input = true ∨ s.readable t = true) :
      PipeChatMove s (.select t input) (s.set t { s t with
        pc := if input then .stdin (s.readable t) else afterStdin (s.readable t) }) [.silent]
  | typed (t : ChatSide) (bs : Bytes) (ready : Bool) (hpc : (s t).pc = .stdin ready)
      (hbs : 0 < bs.length ∧ bs.length ≤ chatMsgSize) :
      PipeChatMove s (.stdin t (some bs)) (s.set t { s t with pc := .write bs ready })
        [.typed t bs]
  | eof (t : ChatSide) (ready : Bool) (hpc : (s t).pc = .stdin ready) :
      PipeChatMove s (.stdin t none) (s.set t { s t with pc := .close₁ }) [.silent]
  | killed (t : ChatSide) (bs : Bytes) (ready : Bool) (hpc : (s t).pc = .write bs ready)
      (hclosed : (s t.other).readOpen = false) :
      PipeChatMove s (.write t)
        (s.set t { s t with pc := .killed, writeOpen := false, readOpen := false }) [.killed t]
  | wrote (t : ChatSide) (bs : Bytes) (ready : Bool) (hpc : (s t).pc = .write bs ready)
      (hopen : (s t.other).readOpen = true)
      (hroom : (s t.other).inbox.length + bs.length ≤ pipeSize) :
      PipeChatMove s (.write t) ((s.set t { s t with pc := afterStdin ready }).set t.other
        { s t.other with inbox := (s t.other).inbox ++ bs }) [.wrote t bs]
  | announced (t : ChatSide) (hpc : (s t).pc = .pipe) (hnil : (s t).inbox = [])
      (hclosed : (s t.other).writeOpen = false) :
      PipeChatMove s (.pipe t) (s.set t { s t with pc := .close₁ }) [.announced t]
  | printed (t : ChatSide) (hpc : (s t).pc = .pipe) (hne : (s t).inbox ≠ []) :
      PipeChatMove s (.pipe t)
        (s.set t { s t with pc := .select, inbox := (s t).inbox.drop chatMsgSize })
        [.printed t ((s t).inbox.take chatMsgSize)]
  | close₁ (t : ChatSide) (hpc : (s t).pc = .close₁) :
      PipeChatMove s (.close t) (s.set t ((s t).close₁ t)) [.silent]
  | close₂ (t : ChatSide) (hpc : (s t).pc = .close₂) :
      PipeChatMove s (.close t)
        (s.set t { s t with pc := .ended, writeOpen := false, readOpen := false }) [.silent]

theorem pipeChatStep_move {s s' : PipeChat} {a : PipeChatAction} {ev : List PipeChatEvent}
    (h : pipeChatStep s a = some (s', ev)) : PipeChatMove s a s' ev := by
  cases a with
  | select t input =>
    obtain ⟨⟨hpc, hready⟩, heq⟩ := Option.ite_none_right_eq_some.mp h
    cases heq
    exact .select t input hpc hready
  | stdin t text =>
    simp only [pipeChatStep] at h
    split at h
    · rename_i ready hpc
      split at h
      · rename_i bs
        obtain ⟨hbs, heq⟩ := Option.ite_none_right_eq_some.mp h
        cases heq
        exact .typed t bs ready hpc hbs
      · cases h
        exact .eof t ready hpc
    · cases h
  | write t =>
    simp only [pipeChatStep] at h
    split at h
    · rename_i bs ready hpc
      split at h
      · rename_i hclosed
        cases h
        exact .killed t bs ready hpc hclosed
      · rename_i hopen
        obtain ⟨hroom, heq⟩ := Option.ite_none_right_eq_some.mp h
        cases heq
        exact .wrote t bs ready hpc (by simpa using hopen) hroom
    · cases h
  | pipe t =>
    obtain ⟨hpc, heq⟩ := Option.ite_none_right_eq_some.mp h
    split at heq
    · rename_i hnil
      obtain ⟨hclosed, heq⟩ := Option.ite_none_right_eq_some.mp heq
      cases heq
      exact .announced t hpc hnil hclosed
    · rename_i hne
      cases heq
      exact .printed t hpc hne
  | close t =>
    simp only [pipeChatStep] at h
    split at h
    · rename_i hpc
      cases h
      exact .close₁ t hpc
    · rename_i hpc
      cases h
      exact .close₂ t hpc
    · cases h

/-! ## 2. What is typed and what is shown -/

def PipeChatEvent.typedBy (t : ChatSide) : PipeChatEvent → Option Bytes
  | .typed u text => if u = t then some text else none
  | _ => none

def PipeChatEvent.wroteBy (t : ChatSide) : PipeChatEvent → Option Bytes
  | .wrote u text => if u = t then some text else none
  | _ => none

def PipeChatEvent.readBy (t : ChatSide) : PipeChatEvent → Option Bytes
  | .printed u text => if u = t then some text else none
  | _ => none

/-- The inputs that a side has read from the terminal. -/
def inputsOf (t : ChatSide) (log : List PipeChatEvent) : List Bytes :=
  log.filterMap (PipeChatEvent.typedBy t)

/-- What it has written to its pipe. -/
def writesOf (t : ChatSide) (log : List PipeChatEvent) : List Bytes :=
  log.filterMap (PipeChatEvent.wroteBy t)

/-- What it has read from its pipe. -/
def readsOf (t : ChatSide) (log : List PipeChatEvent) : List Bytes :=
  log.filterMap (PipeChatEvent.readBy t)

/-- The argument `name` of `chat_loop`. -/
def ChatSide.name : ChatSide → Bytes
  | .parent => utf8 "Parent"
  | .child => utf8 "Child"

/-- `"[%s]: "` -/
def labelOf (name : Bytes) : Bytes := utf8 "[" ++ name ++ utf8 "]: "

/-- What `printf` shows of a read.  Of one that fills `buf` the terminator is written behind the
array, and what `%s` prints then is not up to the program. -/
def shownAs (name text : Bytes) : Option Bytes :=
  if text.length < chatMsgSize then some (labelOf name ++ cstr text) else none

theorem shownAs_eq_iff (name text : Bytes) :
    shownAs name text = some (labelOf name ++ text) ↔
      text.length < chatMsgSize ∧ NulFree text := by
  unfold shownAs
  split
  · rename_i hlen
    rw [Option.some.injEq, List.append_cancel_left_eq, and_iff_right hlen]
    exact ⟨fun h => h ▸ nulFree_cstr text, cstr_of_nulFree⟩
  · rename_i hlen
    exact iff_of_false nofun fun h => hlen h.1

/-- The input that a side has still to write. -/
def ChatPc.pending : ChatPc → Bytes
  | .write text _ => text
  | _ => []

/-- Behind the loop nothing is read or written. -/
def ChatPc.inLoop : ChatPc → Bool
  | .close₁ | .close₂ | .ended | .killed => false
  | _ => true

section

variable {s s' : PipeChat} {a : PipeChatAction} {ev : List PipeChatEvent} {t u : ChatSide}
  {log : List PipeChatEvent}

@[simp] theorem PipeChat.set_self (s : PipeChat) (t : ChatSide) (x : ChatProc) :
    s.set t x t = x := Function.update_self _ _ _

@[simp] theorem PipeChat.set_other (s : PipeChat) (t : ChatSide) (x : ChatProc) :
    s.set t x t.other = s t.other := Function.update_of_ne t.other_ne _ _

@[simp] theorem PipeChat.set_other' (s : PipeChat) (t : ChatSide) (x : ChatProc) :
    s.set t.other x t = s t := Function.update_of_ne t.other_ne.symm _ _

/-- The open ends of a side follow from where it stands. -/
def ChatProc.EndsFit (x : ChatProc) : Prop :=
  (x.pc.inLoop = true ∨ x.pc = .close₁ → x.writeOpen = true ∧ x.readOpen = true) ∧
    (x.pc = .ended ∨ x.pc = .killed → x.writeOpen = false ∧ x.readOpen = false)

theorem endsFit_step (h : ∀ t, (s t).EndsFit) (hm : PipeChatMove s a s' ev) :
    ∀ t, (s' t).EndsFit := by
  have hset : ∀ {u : ChatSide} {x : ChatProc}, x.EndsFit → ∀ t, (s.set u x t).EndsFit := by
    intro u x hx t
    obtain rfl | rfl := t.eq_or_eq_other u
    · simpa using hx
    · simpa using h u.other
  have hloop : ∀ {t : ChatSide} {pc : ChatPc}, (s t).pc.inLoop = true →
      pc.inLoop = true ∨ pc = .close₁ → { s t with pc }.EndsFit := by
    intro t pc hin hpc
    refine ⟨fun _ => (h t).1 (.inl hin), ?_⟩
    rintro (rfl | rfl) <;> simp [ChatPc.inLoop] at hpc
  cases hm with
  | select t input hpc hready =>
    refine hset (hloop (by rw [hpc]; rfl) (.inl ?_))
    cases input <;> cases s.readable t <;> rfl
  | typed t bs ready hpc hbs => exact hset (hloop (by rw [hpc]; rfl) (.inl rfl))
  | eof t ready hpc => exact hset (hloop (by rw [hpc]; rfl) (.inr rfl))
  | killed t bs ready hpc hclosed =>
    exact hset ⟨fun hin => by simp [ChatPc.inLoop] at hin, fun _ => ⟨rfl, rfl⟩⟩
  | wrote t bs ready hpc hopen hroom =>
    intro v
    obtain rfl | rfl := v.eq_or_eq_other t
    · have hnext : (afterStdin ready).inLoop = true := by cases ready <;> rfl
      simpa using hloop (t := v) (by rw [hpc]; rfl) (.inl hnext)
    · rw [PipeChat.set_self]
      exact h t.other
  | announced t hpc hnil hclosed => exact hset (hloop (by rw [hpc]; rfl) (.inr rfl))
  | printed t hpc hne =>
    have hx : { s t with pc := .select }.EndsFit := hloop (by rw [hpc]; rfl) (.inl rfl)
    exact hset hx
  | close₁ t hpc =>
    refine hset ?_
    cases t <;> simp [ChatProc.close₁, ChatProc.EndsFit, ChatPc.inLoop]
  | close₂ t hpc => exact hset ⟨fun hin => by simp [ChatPc.inLoop] at hin, fun _ => ⟨rfl, rfl⟩⟩

/-- A side whose write end is closed is behind its loop. -/
theorem ChatProc.EndsFit.behind (h : (s t).EndsFit) (hclosed : (s t).writeOpen = false) :
    (s t).pc.inLoop = false ∧ (s t).pc ≠ .close₁ := by
  constructor
  · rw [Bool.eq_false_iff]
    intro hin
    rw [(h.1 (.inl hin)).1] at hclosed
    cases hclosed
  · intro hpc
    rw [(h.1 (.inr hpc)).1] at hclosed
    cases hclosed

/-- What holds of a side along a run. -/
structure ChatKept (log : List PipeChatEvent) (s : PipeChat) (t : ChatSide) : Prop where
  written : (s t).pc ≠ .killed →
    (inputsOf t log).flatten = (writesOf t log).flatten ++ (s t).pc.pending
  carried : (writesOf t.other log).flatten = (readsOf t log).flatten ++ (s t).inbox
  killedBy : (s t).pc = .killed → (s t.other).readOpen = false
  told : PipeChatEvent.announced t ∈ log →
    (s t).inbox = [] ∧ (s t.other).writeOpen = false ∧ (s t.other).pc ≠ .killed
  sizes : ∀ r ∈ readsOf t log, r ≠ [] ∧ r.length ≤ chatMsgSize

theorem inputsOf_snoc (t : ChatSide) (log : List PipeChatEvent) (e : PipeChatEvent) :
    inputsOf t (log ++ [e]) = inputsOf t log ++ (e.typedBy t).toList := by
  rw [inputsOf, List.filterMap_append, List.filterMap_cons]
  cases e.typedBy t <;> rfl

theorem writesOf_snoc (t : ChatSide) (log : List PipeChatEvent) (e : PipeChatEvent) :
    writesOf t (log ++ [e]) = writesOf t log ++ (e.wroteBy t).toList := by
  rw [writesOf, List.filterMap_append, List.filterMap_cons]
  cases e.wroteBy t <;> rfl

theorem readsOf_snoc (t : ChatSide) (log : List PipeChatEvent) (e : PipeChatEvent) :
    readsOf t (log ++ [e]) = readsOf t log ++ (e.readBy t).toList := by
  rw [readsOf, List.filterMap_append, List.filterMap_cons]
  cases e.readBy t <;> rfl

theorem chatKept_init (t : ChatSide) : ChatKept [] .init t :=
  ⟨fun _ => rfl, rfl, fun h => by simp [PipeChat.init] at h, fun h => by simp at h,
    fun r h => by simp [readsOf] at h⟩

/-- A step that is not about messages. -/
theorem ChatKept.quiet (h : ChatKept log s t) {e : PipeChatEvent} (hin : e.typedBy t = none)
    (hout : e.wroteBy t = none) (hother : e.wroteBy t.other = none) (hread : e.readBy t = none)
    (hpend : (s' t).pc ≠ .killed → (s t).pc ≠ .killed ∧ (s' t).pc.pending = (s t).pc.pending)
    (hbox : (s' t).inbox = (s t).inbox)
    (hkill : (s' t).pc = .killed → (s' t.other).readOpen = false)
    (htold : PipeChatEvent.announced t ∈ log ++ [e] →
      (s' t).inbox = [] ∧ (s' t.other).writeOpen = false ∧ (s' t.other).pc ≠ .killed) :
    ChatKept (log ++ [e]) s' t := by
  refine ⟨fun hk => ?_, ?_, hkill, htold, ?_⟩
  · obtain ⟨hk', hp⟩ := hpend hk
    simpa [inputsOf_snoc, writesOf_snoc, hin, hout, hp] using h.written hk'
  · simpa [writesOf_snoc, readsOf_snoc, hother, hread, hbox] using h.carried
  · simpa [readsOf_snoc, hread] using h.sizes

theorem ChatKept.step (h : ∀ t, ChatKept log s t) (hfit : ∀ t, (s t).EndsFit)
    (hm : PipeChatMove s a s' ev) (t : ChatSide) : ChatKept (log ++ ev) s' t := by
  have ht := h t
  have hold : ∀ {e : PipeChatEvent}, e ≠ .announced t →
      PipeChatEvent.announced t ∈ log ++ [e] → PipeChatEvent.announced t ∈ log := by
    intro e he hmem
    rcases List.mem_append.mp hmem with hmem | hmem
    · exact hmem
    · exact absurd (List.mem_singleton.mp hmem).symm he
  -- the side that tells the end of the connection has an end in front of it that is closed
  have hloop : ∀ {u : ChatSide}, u = t.other → (s u).pc.inLoop = true ∨ (s u).pc = .close₁ →
      PipeChatEvent.announced t ∉ log := by
    rintro u rfl hin hmem
    obtain ⟨-, hclosed, -⟩ := ht.told hmem
    rw [((hfit t.other).1 hin).1] at hclosed
    cases hclosed
  cases hm with
  | select v input hpc hready =>
    have hnew : (if input then ChatPc.stdin (s.readable v) else afterStdin (s.readable v)).pending
        = [] ∧ (if input then ChatPc.stdin (s.readable v) else afterStdin (s.readable v)) ≠
          .killed := by
      cases input <;> cases s.readable v <;> exact ⟨rfl, by simp [afterStdin]⟩
    obtain rfl | rfl := v.eq_or_eq_other t
    · refine ht.quiet rfl rfl rfl rfl (fun _ => ⟨by simp [hpc], ?_⟩) (by simp) (fun hk => ?_)
        fun hmem => ?_
      · rw [PipeChat.set_self, hpc]
        exact hnew.1
      · rw [PipeChat.set_self] at hk
        exact absurd hk hnew.2
      · simpa using ht.told (hold (by simp) hmem)
    · refine ht.quiet rfl rfl rfl rfl (by simp) (by simp) ?_ fun hmem => ?_
      · simpa using ht.killedBy
      · exact absurd (hold (by simp) hmem) (hloop rfl (.inl (by rw [hpc]; rfl)))
  | typed v bs ready hpc hbs =>
    obtain rfl | rfl := v.eq_or_eq_other t
    · have hw := ht.written (by simp [hpc])
      rw [hpc] at hw
      refine ⟨fun _ => ?_, ?_, fun hk => by simp at hk, fun hmem => ?_, ?_⟩
      · simpa [inputsOf_snoc, writesOf_snoc, PipeChatEvent.typedBy, PipeChatEvent.wroteBy,
          ChatPc.pending] using hw
      · simpa [writesOf_snoc, readsOf_snoc, PipeChatEvent.wroteBy, PipeChatEvent.readBy]
          using ht.carried
      · simpa using ht.told (hold (by simp) hmem)
      · simpa [readsOf_snoc, PipeChatEvent.readBy] using ht.sizes
    · refine ht.quiet (by simp [PipeChatEvent.typedBy]) rfl rfl rfl (by simp) (by simp) ?_
        fun hmem => ?_
      · simpa using ht.killedBy
      · exact absurd (hold (by simp) hmem) (hloop rfl (.inl (by rw [hpc]; rfl)))
  | eof v ready hpc =>
    obtain rfl | rfl := v.eq_or_eq_other t
    · refine ht.quiet rfl rfl rfl rfl ?_ (by simp) (by simp) fun hmem => ?_
      · simp [hpc, ChatPc.pending]
      · simpa using ht.told (hold (by simp) hmem)
    · refine ht.quiet rfl rfl rfl rfl (by simp) (by simp) ?_ fun hmem => ?_
      · simpa using ht.killedBy
      · exact absurd (hold (by simp) hmem) (hloop rfl (.inl (by rw [hpc]; rfl)))
  | killed v bs ready hpc hclosed =>
    obtain rfl | rfl := v.eq_or_eq_other t
    · refine ht.quiet rfl rfl rfl rfl (by simp) (by simp) (by simpa using hclosed) fun hmem => ?_
      simpa using ht.told (hold (by simp) hmem)
    · refine ht.quiet rfl rfl rfl rfl (by simp) (by simp) (fun _ => by simp) fun hmem => ?_
      exact absurd (hold (by simp) hmem) (hloop rfl (.inl (by rw [hpc]; rfl)))
  | wrote v bs ready hpc hopen hroom =>
    have hnew : (afterStdin ready).pending = [] ∧ afterStdin ready ≠ .killed := by
      cases ready <;> exact ⟨rfl, by simp [afterStdin]⟩
    obtain rfl | rfl := v.eq_or_eq_other t
    · have hw := ht.written (by simp [hpc])
      rw [hpc] at hw
      refine ⟨fun _ => ?_, ?_, fun hk => ?_, fun hmem => ?_, ?_⟩
      · rw [PipeChat.set_other', PipeChat.set_self, hnew.1]
        simpa [inputsOf_snoc, writesOf_snoc, PipeChatEvent.typedBy, PipeChatEvent.wroteBy,
          ChatPc.pending] using hw
      · simpa [writesOf_snoc, readsOf_snoc, PipeChatEvent.wroteBy, PipeChatEvent.readBy]
          using ht.carried
      · rw [PipeChat.set_other', PipeChat.set_self] at hk
        exact absurd hk hnew.2
      · simpa using ht.told (hold (by simp) hmem)
      · simpa [readsOf_snoc, PipeChatEvent.readBy] using ht.sizes
    · rw [ChatSide.other_other] at hopen hroom ⊢
      refine ⟨fun hk => ?_, ?_, fun hk => ?_, fun hmem => ?_, ?_⟩
      · rw [PipeChat.set_self] at hk ⊢
        simpa [inputsOf_snoc, writesOf_snoc, PipeChatEvent.typedBy, PipeChatEvent.wroteBy]
          using ht.written hk
      · simp [writesOf_snoc, readsOf_snoc, PipeChatEvent.wroteBy, PipeChatEvent.readBy, ht.carried]
      · simpa using ht.killedBy (by simpa using hk)
      · exact absurd (hold (by simp) hmem) (hloop rfl (.inl (by rw [hpc]; rfl)))
      · simpa [readsOf_snoc, PipeChatEvent.readBy] using ht.sizes
  | announced v hpc hnil hclosed =>
    obtain rfl | rfl := v.eq_or_eq_other t
    · refine ht.quiet rfl rfl rfl rfl ?_ (by simp) (by simp) fun _ => ?_
      · simp [hpc, ChatPc.pending]
      · -- a writer is killed only when nobody reads, and this side still does
        have hread : (s v).readOpen = true := ((hfit v).1 (.inl (by rw [hpc]; rfl))).2
        have halive : (s v.other).pc ≠ .killed := by
          intro hk
          have := (h v.other).killedBy hk
          rw [ChatSide.other_other, hread] at this
          cases this
        simpa using ⟨hnil, hclosed, halive⟩
    · refine ht.quiet rfl rfl rfl rfl (by simp) (by simp) ?_ fun hmem => ?_
      · simpa using ht.killedBy
      · exact absurd (hold (by simp) hmem) (hloop rfl (.inl (by rw [hpc]; rfl)))
  | printed v hpc hne =>
    obtain rfl | rfl := v.eq_or_eq_other t
    · refine ⟨fun _ => ?_, ?_, fun hk => by simp at hk, fun hmem => ?_, ?_⟩
      · have hw := ht.written (by simp [hpc])
        rw [hpc] at hw
        simpa [inputsOf_snoc, writesOf_snoc, PipeChatEvent.typedBy, PipeChatEvent.wroteBy,
          ChatPc.pending] using hw
      · simpa [writesOf_snoc, readsOf_snoc, PipeChatEvent.wroteBy, PipeChatEvent.readBy]
          using ht.carried
      · exact absurd (ht.told (hold (by simp) hmem)).1 hne
      · rw [readsOf_snoc]
        intro r hr
        rcases List.mem_append.mp hr with hr | hr
        · exact ht.sizes r hr
        · simp only [PipeChatEvent.readBy, if_true, Option.toList_some, List.mem_singleton] at hr
          subst hr
          exact ⟨by simp [hne, chatMsgSize], List.length_take_le _ _⟩
    · refine ht.quiet rfl rfl rfl (by simp [PipeChatEvent.readBy]) (by simp) (by simp) ?_
        fun hmem => ?_
      · simpa using ht.killedBy
      · exact absurd (hold (by simp) hmem) (hloop rfl (.inl (by rw [hpc]; rfl)))
  | close₁ v hpc =>
    obtain rfl | rfl := v.eq_or_eq_other t
    · refine ht.quiet rfl rfl rfl rfl ?_ ?_ ?_ fun hmem => ?_
      · cases v <;> simp [hpc, ChatProc.close₁, ChatPc.pending]
      · cases v <;> simp [ChatProc.close₁]
      · cases v <;> simp [ChatProc.close₁]
      · have := ht.told (hold (by simp) hmem)
        cases v <;> simpa [ChatProc.close₁] using this
    · refine ht.quiet rfl rfl rfl rfl (by simp) (by simp) (fun hk => ?_) fun hmem => ?_
      · have := ht.killedBy (by simpa using hk)
        cases t <;> simp [ChatProc.close₁, this, ChatSide.other] at this ⊢
      · exact absurd (hold (by simp) hmem) (hloop rfl (.inr hpc))
  | close₂ v hpc =>
    obtain rfl | rfl := v.eq_or_eq_other t
    · refine ht.quiet rfl rfl rfl rfl ?_ (by simp) (by simp) fun hmem => ?_
      · simp [hpc, ChatPc.pending]
      · simpa using ht.told (hold (by simp) hmem)
    · refine ht.quiet rfl rfl rfl rfl (by simp) (by simp) (fun _ => by simp) fun hmem => ?_
      obtain ⟨hnil, -, -⟩ := ht.told (hold (by simp) hmem)
      simpa using hnil

theorem endsFit_of_runs (h : Runs pipeChatStep (fun _ _ => True) .init log s) (t : ChatSide) :
    (s t).EndsFit := by
  refine h.invariant (I := fun _ s => ∀ t, (s t).EndsFit) (fun t => ?_) ?_ t
  · exact ⟨fun _ => ⟨rfl, rfl⟩, fun h => by rcases h with h | h <;> cases h⟩
  · intro log s a s' ev _ ih _ hs
    exact endsFit_step ih (pipeChatStep_move hs)

theorem chatKept_of_runs (h : Runs pipeChatStep (fun _ _ => True) .init log s) (t : ChatSide) :
    ChatKept log s t := by
  refine h.invariant (I := fun log s => ∀ t, ChatKept log s t) chatKept_init ?_ t
  intro log s a s' ev hrun ih _ hs
  exact ChatKept.step ih (endsFit_of_runs hrun) (pipeChatStep_move hs)

/-- For every interleaving: unless the other side has been killed while it was writing, what a
side has read from its pipe starts all that the other one has typed, and it is all of it when the
side tells that the connection has been closed.  A read is shown as the label and the read itself
if and only if it leaves room for the terminator and has no NUL in it. -/
theorem announced_has_all (h : Runs pipeChatStep (fun _ _ => True) .init log s) (t : ChatSide) :
    ((s t.other).pc ≠ .killed →
      (readsOf t log).flatten <+: (inputsOf t.other log).flatten) ∧
    (.announced t ∈ log → (readsOf t log).flatten = (inputsOf t.other log).flatten) ∧
    ∀ r ∈ readsOf t log, r ≠ [] ∧ r.length ≤ chatMsgSize ∧
      (shownAs t.name r = some (labelOf t.name ++ r) ↔ r.length < chatMsgSize ∧ NulFree r) := by
  have hk := chatKept_of_runs h t
  have hother := chatKept_of_runs h t.other
  have hstart : (s t.other).pc ≠ .killed →
      (readsOf t log).flatten <+: (inputsOf t.other log).flatten := by
    intro halive
    rw [hother.written halive, hk.carried, List.append_assoc]
    exact List.prefix_append _ _
  refine ⟨hstart, fun hmem => ?_, fun r hr =>
    ⟨(hk.sizes r hr).1, (hk.sizes r hr).2, shownAs_eq_iff t.name r⟩⟩
  obtain ⟨hnil, hclosed, halive⟩ := hk.told hmem
  have hpending : (s t.other).pc.pending = [] := by
    obtain ⟨hin, -⟩ := (endsFit_of_runs h t.other).behind hclosed
    cases hpc : (s t.other).pc <;> rw [hpc] at hin <;> first | rfl | cases hin
  rw [hother.written halive, hk.carried, hnil, hpending, List.append_nil, List.append_nil]

/-- The parent passes on a line and comes to the end of the input. -/
def parentSays : List PipeChatAction :=
  [.select .parent true, .stdin .parent (some (utf8 "hi\n")), .write .parent,
    .select .parent true, .stdin .parent none, .close .parent, .close .parent]

/-- The child prints what is in its pipe, and tells that the connection has been closed. -/
def childTells : List PipeChatAction :=
  [.select .child false, .pipe .child, .select .child false, .pipe .child]

theorem announced_has_all_hi : ∃ log s, Runs pipeChatStep (fun _ _ => True) .init log s ∧
    readsOf .child log = [utf8 "hi\n"] ∧
    (readsOf .child log).flatten = (inputsOf .parent log).flatten := by
  obtain ⟨log, s, hrun, hp⟩ : ∃ log s, Runs pipeChatStep (fun _ _ => True) .init log s ∧
      decide (PipeChatEvent.announced .child ∈ log ∧ readsOf .child log = [utf8 "hi\n"]) = true :=
    exists_runs_of_exec (parentSays ++ childTells) _ (by decide)
  obtain ⟨hmem, hreads⟩ := of_decide_eq_true hp
  exact ⟨log, s, hrun, hreads, (announced_has_all hrun .child).2.1 hmem⟩

/-! ## 3. Once one side is gone -/

/-- The process has ended or has been killed. -/
def ChatPc.gone : ChatPc → Bool
  | .ended | .killed => true
  | _ => false

/-- How many steps a side may have in front of it when there is nothing in its pipe. -/
def ChatPc.rank : ChatPc → Nat
  | .select => 5
  | .stdin _ => 4
  | .write _ _ => 3
  | .pipe => 3
  | .close₁ => 2
  | .close₂ => 1
  | .ended | .killed => 0

def ChatProc.ahead (x : ChatProc) : Nat := x.pc.rank + 4 * x.inbox.length

theorem ChatPc.rank_le (pc : ChatPc) : pc.rank ≤ 5 := by
  cases pc <;> simp [ChatPc.rank]

theorem ChatProc.EndsFit.closed_of_gone (h : (s t).EndsFit) (hgone : (s t).pc.gone = true) :
    (s t).writeOpen = false ∧ (s t).readOpen = false := by
  refine h.2 ?_
  cases hpc : (s t).pc <;> rw [hpc] at hgone <;> simp [ChatPc.gone] at hgone ⊢

/-- A side whose other side is gone gets closer to its own end with every step. -/
theorem PipeChatMove.comes_closer (hm : PipeChatMove s a s' ev) (hfit : (s t.other).EndsFit)
    (hgone : (s t.other).pc.gone = true) :
    s' t.other = s t.other ∧ (s' t).ahead + ev.length ≤ (s t).ahead := by
  have hclosed := hfit.closed_of_gone hgone
  have hready : s.readable t = true := by simp [PipeChat.readable, hclosed.1]
  have hmine : ∀ {u : ChatSide} {pc : ChatPc}, (s u).pc = pc → pc.gone = false → u = t := by
    intro u pc hpc hpc'
    obtain rfl | rfl := u.eq_or_eq_other t
    · rfl
    · rw [hpc, hpc'] at hgone
      cases hgone
  cases hm with
  | select v input hpc hr =>
    obtain rfl := hmine hpc rfl
    refine ⟨by simp, ?_⟩
    cases input with
    | false =>
      simp only [ChatProc.ahead, PipeChat.set_self, hpc, hready, afterStdin, ChatPc.rank,
        List.length_singleton, Bool.false_eq_true, if_false, if_true]
      omega
    | true =>
      simp only [ChatProc.ahead, PipeChat.set_self, hpc, ChatPc.rank, List.length_singleton,
        if_true]
      omega
  | typed v bs ready hpc hbs =>
    obtain rfl := hmine hpc rfl
    refine ⟨by simp, ?_⟩
    simp only [ChatProc.ahead, PipeChat.set_self, hpc, ChatPc.rank, List.length_singleton]
    omega
  | eof v ready hpc =>
    obtain rfl := hmine hpc rfl
    refine ⟨by simp, ?_⟩
    simp only [ChatProc.ahead, PipeChat.set_self, hpc, ChatPc.rank, List.length_singleton]
    omega
  | killed v bs ready hpc hno =>
    obtain rfl := hmine hpc rfl
    refine ⟨by simp, ?_⟩
    simp only [ChatProc.ahead, PipeChat.set_self, hpc, ChatPc.rank, List.length_singleton]
    omega
  | wrote v bs ready hpc hopen hroom =>
    obtain rfl := hmine hpc rfl
    rw [hclosed.2] at hopen
    cases hopen
  | announced v hpc hnil hno =>
    obtain rfl := hmine hpc rfl
    refine ⟨by simp, ?_⟩
    simp only [ChatProc.ahead, PipeChat.set_self, hpc, ChatPc.rank, List.length_singleton]
    omega
  | printed v hpc hne =>
    obtain rfl := hmine hpc rfl
    have hpos : 0 < (s v).inbox.length := List.length_pos_of_ne_nil hne
    refine ⟨by simp, ?_⟩
    simp only [ChatProc.ahead, PipeChat.set_self, hpc, ChatPc.rank, List.length_drop,
      List.length_singleton, chatMsgSize]
    omega
  | close₁ v hpc =>
    obtain rfl := hmine hpc rfl
    refine ⟨by simp, ?_⟩
    have hlater : ((s.set v ((s v).close₁ v)) v).ahead = 1 + 4 * (s v).inbox.length := by
      rw [PipeChat.set_self]
      cases v <;> rfl
    rw [hlater, ChatProc.ahead, hpc, List.length_singleton, ChatPc.rank]
    omega
  | close₂ v hpc =>
    obtain rfl := hmine hpc rfl
    refine ⟨by simp, ?_⟩
    simp only [ChatProc.ahead, PipeChat.set_self, hpc, ChatPc.rank, List.length_singleton]
    omega

/-- A side whose other side is gone does not wait for its pipe. -/
theorem exists_step_of_gone (hclosed : (s t.other).writeOpen = false ∧
    (s t.other).readOpen = false) (hleft : (s t).pc.gone = false) :
    ∃ a r, pipeChatStep s a = some r := by
  have hready : s.readable t = true := by simp [PipeChat.readable, hclosed.1]
  cases hpc : (s t).pc with
  | select => exact ⟨.select t false, by simp [pipeChatStep, hpc, hready]⟩
  | stdin ready => exact ⟨.stdin t none, by simp [pipeChatStep, hpc]⟩
  | write bs ready => exact ⟨.write t, by simp [pipeChatStep, hpc, hclosed.2]⟩
  | pipe =>
    refine ⟨.pipe t, ?_⟩
    by_cases hnil : (s t).inbox = []
    · simp [pipeChatStep, hpc, hnil, hclosed.1]
    · simp [pipeChatStep, hpc, hnil]
  | close₁ => exact ⟨.close t, by simp [pipeChatStep, hpc]⟩
  | close₂ => exact ⟨.close t, by simp [pipeChatStep, hpc]⟩
  | ended => rw [hpc] at hleft; cases hleft
  | killed => rw [hpc] at hleft; cases hleft

/-- Whenever one side is gone, at most five steps are left, and four for each byte in the pipe of
the other side: whichever of them are taken, when no further step can be taken both are gone. -/
theorem other_side_ends {log' : List PipeChatEvent}
    (h : Runs pipeChatStep (fun _ _ => True) .init log s) (hgone : (s t.other).pc.gone = true)
    (h' : Runs pipeChatStep (fun _ _ => True) s log' s') :
    log'.length ≤ 5 + 4 * (s t).inbox.length ∧
      ((∀ a, pipeChatStep s' a = none) → ∀ u, (s' u).pc.gone = true) := by
  have hsame : ∀ {log' s'}, Runs pipeChatStep (fun _ _ => True) s log' s' →
      s' t.other = s t.other := by
    intro log' s' h'
    refine h'.invariant (I := fun _ s' => s' t.other = s t.other) rfl ?_
    intro log' r a r' ev hrun ih _ hs
    have hfit := endsFit_of_runs (h.trans hrun) t.other
    rw [((pipeChatStep_move hs).comes_closer hfit (by rw [ih]; exact hgone)).1, ih]
  constructor
  · have hpays : Pays pipeChatStep (fun _ _ => True) s (fun _ => false)
        (fun s => (s t).ahead) 0 := by
      intro log' r a r' ev hrun _ hs
      have hfit := endsFit_of_runs (h.trans hrun) t.other
      have hr : (r t.other).pc.gone = true := by rw [hsame hrun]; exact hgone
      simpa using ((pipeChatStep_move hs).comes_closer hfit hr).2
    have hle := h'.length_le hpays
    have hrank := (s t).pc.rank_le
    simp only [ChatProc.ahead] at hle
    simp only [List.countP_false, Function.const] at hle
    omega
  · intro hstuck u
    have hother : (s' t.other).pc.gone = true := by rw [hsame h']; exact hgone
    obtain rfl | rfl := u.eq_or_eq_other t
    · by_contra hleft
      have hclosed := (endsFit_of_runs (h.trans h') u.other).closed_of_gone hother
      obtain ⟨a, r, hs⟩ := exists_step_of_gone hclosed (Bool.eq_false_iff.mpr hleft)
      rw [hstuck a] at hs
      cases hs
    · exact hother

end

theorem other_side_ends_hi : ∃ log s log' s', Runs pipeChatStep (fun _ _ => True) .init log s ∧
    (s .parent).pc = .ended ∧ (s .child).inbox = utf8 "hi\n" ∧
    Runs pipeChatStep (fun _ _ => True) s log' s' ∧ log'.length ≤ 17 := by
  obtain ⟨log, s, hrun, hp⟩ : ∃ log s, Runs pipeChatStep (fun _ _ => True) .init log s ∧
      decide ((s .parent).pc = .ended ∧ s .child = ⟨.select, utf8 "hi\n", true, true⟩) = true :=
    exists_runs_of_exec parentSays _ (by decide)
  obtain ⟨hpc, hchild⟩ := of_decide_eq_true hp
  have hready : s.readable .child = true := by simp [PipeChat.readable, hchild, utf8]
  have hone : Runs pipeChatStep (fun _ _ => True) s [.silent]
      (s.set .child { s .child with pc := .pipe }) :=
    .one (a := .select .child false) trivial (by simp [pipeChatStep, hchild, hready, afterStdin])
  have hend := (other_side_ends (t := .child) hrun (by rw [ChatSide.other, hpc]; rfl) hone).1
  rw [hchild] at hend
  exact ⟨log, s, [.silent], _, hrun, hpc, by rw [hchild], hone, hend⟩

end PosixLab.Programs
