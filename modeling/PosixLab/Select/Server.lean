/-
# The descriptor set of the select chat server

The chat server of `chat_server.c` has one thread and no tables: its clients are the descriptors
in `reads`.  A round is a `select` on a snapshot of that set and a scan of the indices from 0 to
`fd_max`, in which the listening socket is answered by `accept` and every other ready descriptor
by one `read`.  What a call returns comes with the step: `accept` fails or returns the lowest
free descriptor, `read` fails, ends, or gives some bytes.

The set is exact as long as the server is given no chance to overlook a failure
(`descriptors_exact_iff`): it tests neither what `accept` returns, nor that a descriptor fits a
`fd_set`, nor `read` for -1.
-/
import PosixLab.Basis.Runs
import PosixLab.Chat.ChatLoop
import Mathlib.Data.Finset.Insert

namespace PosixLab.Select

open PosixLab
open PosixLab.Chat (ReadResult)

/-! ## 1. The server -/

/-- `BUF_SIZE`. -/
def bufSize : Nat := 1024

/-- `FD_SETSIZE`: the number of descriptors that a `fd_set` has room for. -/
def fdSetSize : Int := 1024

/-- Where the server stands: before `select`, at index `i` of the scan, or behind the loop. -/
inductive SelectPc
  | select
  | scan
  | stopped
deriving DecidableEq

/-- The variables of `main`, the open descriptors of the process, and the clients whose
connection has not ended or failed. -/
structure SelectServer where
  servSock : Int
  reads : Finset Int
  cpyReads : Finset Int
  fdMax : Int
  i : Int
  buf : Bytes
  pc : SelectPc
  opens : Finset Int
  connected : Finset Int

/-- The server before the loop.  The process was started with some descriptors open. -/
def SelectServer.init (inherited : Finset Int) (servSock : Int) (buf : Bytes) : SelectServer where
  servSock
  reads := {servSock}
  cpyReads := ∅
  fdMax := servSock
  i := 0
  buf
  pc := .select
  opens := insert servSock inherited
  connected := ∅

/-- The descriptor that `socket` and `accept` return when they succeed. -/
def LowestFree (opens : Finset Int) (fd : Int) : Prop :=
  0 ≤ fd ∧ fd ∉ opens ∧ ∀ k < fd.toNat, (k : Int) ∈ opens

instance (opens : Finset Int) (fd : Int) : Decidable (LowestFree opens fd) :=
  inferInstanceAs (Decidable (_ ∧ _))

/-- The text that `sprintf` puts into `msg_with_id`. -/
def msgWithId (i : Int) (buf : Bytes) : Bytes :=
  utf8 "[Client " ++ decimal i ++ utf8 "]: " ++ cstr buf

/-- The loop over `j`: what is written to whom. -/
def SelectServer.broadcast (s : SelectServer) (msg : Bytes) : List (Int × Bytes) :=
  ((List.range (s.fdMax + 1).toNat).map Int.ofNat).filterMap fun j =>
    if j ∈ s.reads ∧ j ≠ s.servSock ∧ j ≠ s.i then some (j, msg) else none

/-- A call that the server makes, with what it returns, or an index that it only looks at. -/
inductive SelectAction
  /-- the ready part of the snapshot, or `none` for -1 -/
  | select (ready : Option (Finset Int))
  | skip
  | accept (clntSock : Int)
  | read (r : ReadResult)

/-- A read of client `i`, and what is done with it. -/
def SelectServer.read (s : SelectServer) : ReadResult → SelectServer × List (Int × Bytes)
  | .eof =>
    ({ s with
      reads := s.reads.erase s.i
      opens := s.opens.erase s.i
      connected := s.connected.erase s.i
      i := s.i + 1 }, [])
  | .error =>
    -- the connection has failed, and the text of the read before is broadcast once more
    ({ s with connected := s.connected.erase s.i, i := s.i + 1 },
      s.broadcast (msgWithId s.i s.buf))
  | .data bs =>
    let buf := store s.buf (bs ++ [0])
    ({ s with buf, i := s.i + 1 }, s.broadcast (msgWithId s.i buf))

/-- One step, and what it writes to the clients. -/
def selectStep (s : SelectServer) : SelectAction → SelectServer × List (Int × Bytes)
  | .select none => ({ s with pc := .stopped, opens := s.opens.erase s.servSock }, [])
  | .select (some ready) =>
    ({ s with cpyReads := ready, i := 0, pc := if ready = ∅ then .select else .scan }, [])
  | .skip => ({ s with pc := if s.fdMax < s.i then .select else .scan, i := s.i + 1 }, [])
  | .accept clntSock =>
    ({ s with
      reads := insert clntSock s.reads
      fdMax := if s.fdMax < clntSock then clntSock else s.fdMax
      opens := if clntSock = -1 then s.opens else insert clntSock s.opens
      connected := if clntSock = -1 then s.connected else insert clntSock s.connected
      i := s.i + 1 }, [])
  | .read r => s.read r

/-- The state behind a step. -/
def selectNext (s : SelectServer) (a : SelectAction) : SelectServer := (selectStep s a).1

/-- The index of the scan is one that is served. -/
def SelectServer.Ready (s : SelectServer) : Prop :=
  s.pc = .scan ∧ s.i ≤ s.fdMax ∧ s.i ∈ s.cpyReads

instance : DecidablePred SelectServer.Ready := fun _ => inferInstanceAs (Decidable (_ ∧ _))

/-- What `read` can return for an array of `BUF_SIZE` bytes. -/
def Returns : ReadResult → Prop
  | .eof | .error => True
  | .data bs => 0 < bs.length ∧ bs.length ≤ bufSize

instance : DecidablePred Returns
  | .eof | .error => inferInstanceAs (Decidable True)
  | .data _ => inferInstanceAs (Decidable (_ ∧ _))

/-- The action is what the server does next, and the calls return what they can return. -/
def Possible (s : SelectServer) : SelectAction → Prop
  | .select none => s.pc = .select
  | .select (some ready) => s.pc = .select ∧ ready ⊆ s.reads ∧ ∀ fd ∈ ready, 0 ≤ fd ∧ fd ≤ s.fdMax
  | .skip => s.pc = .scan ∧ ¬s.Ready
  | .accept clntSock =>
    s.Ready ∧ s.i = s.servSock ∧ (clntSock = -1 ∨ LowestFree s.opens clntSock)
  | .read r => s.Ready ∧ s.i ≠ s.servSock ∧ Returns r

instance (s : SelectServer) : (a : SelectAction) → Decidable (Possible s a)
  | .select none => inferInstanceAs (Decidable (_ = _))
  | .select (some _) | .skip | .accept _ | .read _ => inferInstanceAs (Decidable (_ ∧ _))

/-! ## 2. What the loop keeps -/

/-- `reads` has the listening socket and the connected clients, and each of them fits. -/
def Exact (s : SelectServer) : Prop :=
  s.reads = insert s.servSock s.connected ∧
    ∀ fd ∈ s.reads, 0 ≤ fd ∧ fd ≤ s.fdMax ∧ fd < fdSetSize

instance : DecidablePred Exact := fun _ => inferInstanceAs (Decidable (_ ∧ _))

/-- The failures that the server does not look for do not happen: `accept` returns a descriptor
that a `fd_set` has room for, and `read` does not return -1. -/
def NoFailure (_ : SelectServer) : SelectAction → Prop
  | .accept clntSock => clntSock ≠ -1 ∧ clntSock < fdSetSize
  | .read .error => False
  | _ => True

instance (s : SelectServer) : (a : SelectAction) → Decidable (NoFailure s a)
  | .accept _ => inferInstanceAs (Decidable (_ ∧ _))
  | .read .error => inferInstanceAs (Decidable False)
  | .select _ | .skip | .read .eof | .read (.data _) => inferInstanceAs (Decidable True)

/-- What the steps keep: the descriptors in the set are open, and what is left of a snapshot is
still in the set. -/
structure Kept (s : SelectServer) : Prop where
  exact : Exact s
  listening : s.servSock ∉ s.connected
  opens : s.pc ≠ .stopped → s.reads ⊆ s.opens
  snapshot : s.pc = .scan → ∀ fd ∈ s.cpyReads, s.i ≤ fd → fd ∈ s.reads

section

variable {s : SelectServer} {a : SelectAction}

theorem Kept.ready (h : Kept s) (hr : s.Ready) : s.i ∈ s.reads :=
  h.snapshot hr.1 s.i hr.2.2 (Int.le_refl _)

theorem Kept.accept (h : Kept s) {clntSock : Int} (hr : s.Ready)
    (hfree : LowestFree s.opens clntSock) (hfit : clntSock < fdSetSize) :
    Kept (selectNext s (.accept clntSock)) := by
  obtain ⟨hnonneg, hclosed, -⟩ := hfree
  have hne : clntSock ≠ -1 := by omega
  have hopens := h.opens (by simp [hr.1])
  have hlisten : s.servSock ∈ s.opens := hopens (by simp [h.exact.1])
  simp only [selectNext, selectStep, if_neg hne]
  refine ⟨⟨?_, fun fd hfd => ?_⟩, ?_, fun _ => ?_, fun _ fd hfd hle => ?_⟩
  · simp only [h.exact.1, Finset.insert_comm]
  · have hmax : s.fdMax ≤ (if s.fdMax < clntSock then clntSock else s.fdMax) ∧
        clntSock ≤ (if s.fdMax < clntSock then clntSock else s.fdMax) := by
      split <;> omega
    rcases Finset.mem_insert.mp hfd with rfl | hfd
    · exact ⟨hnonneg, hmax.2, hfit⟩
    · obtain ⟨h₀, h₁, h₂⟩ := h.exact.2 fd hfd
      exact ⟨h₀, h₁.trans hmax.1, h₂⟩
  · -- the new descriptor was free, and the listening socket is open
    simp only [Finset.mem_insert, not_or]
    exact ⟨fun heq => hclosed (heq ▸ hlisten), h.listening⟩
  · exact Finset.insert_subset_insert _ hopens
  · exact Finset.mem_insert_of_mem (h.snapshot hr.1 fd hfd (Int.le_of_lt hle))

theorem Kept.eof (h : Kept s) (hr : s.Ready) (hi : s.i ≠ s.servSock) :
    Kept (selectNext s (.read .eof)) := by
  have hopens := h.opens (by simp [hr.1])
  simp only [selectNext, selectStep, SelectServer.read]
  refine ⟨⟨?_, fun fd hfd => ?_⟩, ?_, fun _ => ?_, fun _ fd hfd hle => ?_⟩
  · simp only [h.exact.1, Finset.erase_insert_of_ne hi.symm]
  · exact h.exact.2 fd (Finset.mem_of_mem_erase hfd)
  · exact fun hmem => h.listening (Finset.mem_of_mem_erase hmem)
  · exact Finset.erase_subset_erase _ hopens
  · -- the scan is past the index that was taken out
    refine Finset.mem_erase.mpr ⟨?_, h.snapshot hr.1 fd hfd (Int.le_of_lt hle)⟩
    rintro rfl
    exact absurd hle (by simp)

theorem Kept.step (h : Kept s) (ha : Possible s a) (hn : NoFailure s a) :
    Kept (selectNext s a) := by
  cases a with
  | select ready =>
    cases ready with
    | none => exact ⟨h.exact, h.listening, fun hpc => absurd rfl hpc, fun hpc => by cases hpc⟩
    | some ready =>
      obtain ⟨hpc, hsub, -⟩ := ha
      exact ⟨h.exact, h.listening, fun _ => h.opens (by simp [hpc]), fun _ fd hfd _ => hsub hfd⟩
  | skip =>
    obtain ⟨hpc, -⟩ := ha
    exact ⟨h.exact, h.listening, fun _ => h.opens (by simp [hpc]), fun _ fd hfd hle =>
      h.snapshot hpc fd hfd (Int.le_of_lt hle)⟩
  | accept clntSock =>
    obtain ⟨hr, -, hret⟩ := ha
    exact h.accept hr (hret.resolve_left hn.1) hn.2
  | read r =>
    obtain ⟨hr, hi, -⟩ := ha
    cases r with
    | eof => exact h.eof hr hi
    | error => exact hn.elim
    | data bs =>
      exact ⟨h.exact, h.listening, h.opens, fun hpc fd hfd hle =>
        h.snapshot hpc fd hfd (Int.le_of_lt hle)⟩

/-- A failure that the server does not look for leaves the set wrong. -/
theorem Kept.noFailure (h : Kept s) (ha : Possible s a) (he : Exact (selectNext s a)) :
    NoFailure s a := by
  cases a with
  | select ready => trivial
  | skip => trivial
  | accept clntSock =>
    obtain ⟨hnonneg, -, hfit⟩ := he.2 clntSock (Finset.mem_insert_self _ _)
    exact ⟨by omega, hfit⟩
  | read r =>
    obtain ⟨hr, hi, -⟩ := ha
    cases r with
    | eof | data bs => trivial
    | error =>
      -- the descriptor stays in the set, and no client is connected there
      have hreads : s.reads = insert s.servSock (s.connected.erase s.i) := he.1
      have hmem := h.ready hr
      simp [hreads, hi] at hmem

end

theorem kept_init {inherited : Finset Int} {servSock : Int} (buf : Bytes)
    (h : LowestFree inherited servSock) (hfit : servSock < fdSetSize) :
    Kept (.init inherited servSock buf) := by
  refine ⟨⟨rfl, fun fd hfd => ?_⟩, Finset.notMem_empty _, fun _ => ?_, fun hpc => by cases hpc⟩
  · rw [Finset.mem_singleton.mp hfd]
    exact ⟨h.1, Int.le_refl _, hfit⟩
  · exact Finset.singleton_subset_iff.mpr (Finset.mem_insert_self _ _)

/-- For every sequence of rounds, with any ready sets and any results of `accept` and `read`
that these calls can have: in every state `reads` has exactly the listening socket and the
connected clients, each of them at most `fd_max` and fit for a `fd_set`, if and only if the
listening socket fits, no `accept` fails or returns a descriptor that does not fit, and no
`read` fails. -/
theorem descriptors_exact_iff {inherited : Finset Int} {servSock : Int} (buf : Bytes)
    (h : LowestFree inherited servSock) (as : List SelectAction)
    (has : Each selectNext Possible (.init inherited servSock buf) as) :
    Always selectNext Exact (.init inherited servSock buf) as ↔
      servSock < fdSetSize ∧ Each selectNext NoFailure (.init inherited servSock buf) as := by
  have hexact : servSock < fdSetSize →
      (Always selectNext Exact (.init inherited servSock buf) as ↔
        Each selectNext NoFailure (.init inherited servSock buf) as) := fun hfit =>
    always_iff_each (fun hk => hk.exact) (fun hk ha hn => hk.step ha hn)
      (fun hk ha he => hk.noFailure ha he) (kept_init buf h hfit) has
  constructor
  · intro hall
    have hfit : servSock < fdSetSize := (hall.head.2 servSock (Finset.mem_singleton_self _)).2.2
    exact ⟨hfit, (hexact hfit).mp hall⟩
  · rintro ⟨hfit, hn⟩
    exact (hexact hfit).mpr hn

/-- The descriptors 0 to 2 are open from the start, so the listening socket is 3.  Two clients
come, the first one writes and leaves, and a third one gets its descriptor. -/
def threeClients : List SelectAction :=
  [.select (some {3}), .skip, .skip, .skip, .accept 4, .skip, .skip,
    .select (some {3}), .skip, .skip, .skip, .accept 5, .skip, .skip, .skip,
    .select (some {4}), .skip, .skip, .skip, .skip, .read (.data (utf8 "hi")), .skip, .skip,
    .select (some {4}), .skip, .skip, .skip, .skip, .read .eof, .skip, .skip,
    .select (some {3}), .skip, .skip, .skip, .accept 4]

theorem descriptors_exact_threeClients :
    Always selectNext Exact (.init {0, 1, 2} 3 []) threeClients ↔
      (3 : Int) < fdSetSize ∧ Each selectNext NoFailure (.init {0, 1, 2} 3 []) threeClients :=
  descriptors_exact_iff [] (by decide) threeClients (by decide)

/-- The connection of client 4 is reset: `read` returns -1, and the descriptor stays in the
set. -/
theorem reset_stays : ∃ as, Each selectNext Possible (.init {0, 1, 2} 3 []) as ∧
    ¬Always selectNext Exact (.init {0, 1, 2} 3 []) as :=
  ⟨[.select (some {3}), .skip, .skip, .skip, .accept 4, .skip, .skip,
    .select (some {4}), .skip, .skip, .skip, .skip, .read .error], by decide⟩

end PosixLab.Select
