/-
# What the select chat server sends

A chunk that client `i` has sent goes through a terminator, a `sprintf` and a `strlen` before it
is written to the others.  The terminator needs a byte behind the chunk, and the two string
functions see the chunk up to its first NUL; so a chunk that fills the array, and one with a NUL
in it, are not passed on as they are (`broadcast_exact_iff`).
-/
import PosixLab.Select.Server

namespace PosixLab.Select

open PosixLab
open PosixLab.Chat (ReadResult)

/-! ## 1. The texts -/

/-- The prefix of what client `i` says. -/
def clientPrefix (i : Int) : Bytes := utf8 "[Client " ++ decimal i ++ utf8 "]: "

/-- The size of `msg_with_id`. -/
def msgSize : Nat := bufSize + 30

/-- The bytes that a read of the chunk and the `sprintf` behind it store, up to their terminators,
fit into `buf` and `msg_with_id`. -/
def InBounds (s : SelectServer) (bs : Bytes) : Prop :=
  bs.length < bufSize ∧ (msgWithId s.i (store s.buf (bs ++ [0]))).length < msgSize

/-- The texts that a client is written, in order. -/
def writtenTo (j : Int) (out : List (Int × Bytes)) : List Bytes :=
  (out.filter (·.1 == j)).map Prod.snd

/-- Each other client is written the prefix and the chunk, once; nobody else is written anything,
and no array is written past its end. -/
def ExactBroadcast (s : SelectServer) (bs : Bytes) : Prop :=
  let out := (selectStep s (.read (.data bs))).2
  (∀ j ∈ s.connected, j ≠ s.i → writtenTo j out = [clientPrefix s.i ++ bs]) ∧
  (∀ j, j = s.i ∨ j = s.servSock ∨ j ∉ s.connected → writtenTo j out = []) ∧
  InBounds s bs

section

variable {s : SelectServer} {bs : Bytes}

/-- What the string functions see of a chunk. -/
theorem msgWithId_store (i : Int) (buf bs : Bytes) :
    msgWithId i (store buf (bs ++ [0])) = clientPrefix i ++ cstr bs := by
  rw [msgWithId, cstr_store_nul, clientPrefix]

theorem cstr_eq_self_iff : cstr bs = bs ↔ 0 ∉ bs := by
  constructor
  · intro h hmem
    exact nulFree_cstr bs 0 (h.symm ▸ hmem) rfl
  · exact fun h => cstr_of_nulFree (.of_notMem h)

/-- The prefix with a descriptor that fits a `fd_set`. -/
theorem length_clientPrefix_le {i : Int} (h₀ : 0 ≤ i) (hi : i < fdSetSize) :
    (clientPrefix i).length ≤ 23 := by
  have hint : IsInt i := by
    rw [fdSetSize] at hi
    constructor <;> omega
  have hopen : (utf8 "[Client ").length = 8 := by decide
  have hclose : (utf8 "]: ").length = 3 := by decide
  have hdec := length_decimal_le hint
  rw [clientPrefix, List.length_append, List.length_append]
  omega

/-! ## 2. The loop over the descriptors -/

theorem mem_indices {j m : Int} :
    j ∈ (List.range (m + 1).toNat).map Int.ofNat ↔ 0 ≤ j ∧ j ≤ m := by
  rw [List.mem_map]
  constructor
  · rintro ⟨k, hk, rfl⟩
    rw [List.mem_range] at hk
    simp only [Int.ofNat_eq_natCast]
    omega
  · rintro ⟨h₀, hm⟩
    exact ⟨j.toNat, List.mem_range.mpr (by omega), Int.toNat_of_nonneg h₀⟩

/-- The loop writes to each descriptor it is meant for, once. -/
theorem writtenTo_broadcast (hexact : Exact s) (msg : Bytes) (j : Int) :
    writtenTo j (s.broadcast msg) =
      if j ∈ s.reads ∧ j ≠ s.servSock ∧ j ≠ s.i then [msg] else [] := by
  have hfilter : ∀ js : List Int, js.Nodup →
      ((js.filterMap fun k =>
        if k ∈ s.reads ∧ k ≠ s.servSock ∧ k ≠ s.i then some (k, msg) else none).filter
          (·.1 == j)).map Prod.snd =
        if j ∈ js ∧ j ∈ s.reads ∧ j ≠ s.servSock ∧ j ≠ s.i then [msg] else [] := by
    intro js hjs
    induction js with
    | nil => simp
    | cons k js ih =>
      obtain ⟨hk, hjs⟩ := List.nodup_cons.mp hjs
      by_cases hkj : k = j
      · subst hkj
        by_cases hto : k ∈ s.reads ∧ k ≠ s.servSock ∧ k ≠ s.i <;> simp [ih hjs, hk, hto]
      · have hjk : j ≠ k := fun h => hkj h.symm
        by_cases hto : k ∈ s.reads ∧ k ≠ s.servSock ∧ k ≠ s.i <;> simp [ih hjs, hkj, hjk, hto]
  have hnodup : ((List.range (s.fdMax + 1).toNat).map Int.ofNat).Nodup :=
    List.nodup_range.map fun a b h => Int.ofNat.inj h
  rw [writtenTo, SelectServer.broadcast, hfilter _ hnodup]
  refine if_congr ⟨fun h => h.2, fun h => ⟨mem_indices.mpr ?_, h⟩⟩ rfl rfl
  obtain ⟨h₀, hmax, -⟩ := hexact.2 j h.1
  exact ⟨h₀, hmax⟩

/-- What a read of a chunk makes the server write to a descriptor. -/
theorem writtenTo_read (hexact : Exact s) (hlisten : s.servSock ∉ s.connected) (bs : Bytes)
    (j : Int) : writtenTo j (selectStep s (.read (.data bs))).2 =
      if j ∈ s.connected ∧ j ≠ s.i then [clientPrefix s.i ++ cstr bs] else [] := by
  have hreads : j ∈ s.reads ∧ j ≠ s.servSock ∧ j ≠ s.i ↔ j ∈ s.connected ∧ j ≠ s.i := by
    rw [hexact.1, Finset.mem_insert]
    constructor
    · rintro ⟨rfl | hj, hs, hne⟩
      · exact absurd rfl hs
      · exact ⟨hj, hne⟩
    · rintro ⟨hj, hne⟩
      exact ⟨.inr hj, fun h => hlisten (h ▸ hj), hne⟩
  rw [selectStep, SelectServer.read, msgWithId_store, writtenTo_broadcast (s := s) hexact]
  exact if_congr hreads rfl rfl

/-! ## 3. The exact condition -/

/-- For every set of connected clients and every chunk that a read of one of them returns: each
other client is written the prefix and the chunk once, nobody else is written anything, and no
array is written past its end, if and only if the chunk is shorter than the array and has no NUL,
or there is nobody to be written to. -/
theorem broadcast_exact_iff (hexact : Exact s) (hlisten : s.servSock ∉ s.connected)
    (hi : s.i ∈ s.connected) (bs : Bytes) :
    ExactBroadcast s bs ↔
      bs.length < bufSize ∧ (0 ∉ bs ∨ ∀ j ∈ s.connected, j = s.i) := by
  simp only [ExactBroadcast, writtenTo_read hexact hlisten]
  constructor
  · rintro ⟨hothers, -, hlen, -⟩
    refine ⟨hlen, ?_⟩
    by_cases hall : ∀ j ∈ s.connected, j = s.i
    · exact .inr hall
    · simp only [not_forall] at hall
      obtain ⟨j, hj, hne⟩ := hall
      have hmsg := hothers j hj hne
      rw [if_pos ⟨hj, hne⟩] at hmsg
      exact .inl (cstr_eq_self_iff.mp (List.append_cancel_left (List.cons.inj hmsg).1))
  · rintro ⟨hlen, hcase⟩
    refine ⟨fun j hj hne => ?_, fun j hj => ?_, hlen, ?_⟩
    · rw [if_pos ⟨hj, hne⟩]
      rcases hcase with hnul | hall
      · rw [cstr_eq_self_iff.mpr hnul]
      · exact absurd (hall j hj) hne
    · refine if_neg ?_
      rintro ⟨hmem, hne⟩
      rcases hj with rfl | rfl | hno
      · exact hne rfl
      · exact hlisten hmem
      · exact hno hmem
    · have hmem : s.i ∈ s.reads := by
        rw [hexact.1]
        exact Finset.mem_insert_of_mem hi
      obtain ⟨h₀, -, hfit⟩ := hexact.2 s.i hmem
      have hpre := length_clientPrefix_le h₀ hfit
      have hstr := length_cstr_le bs
      rw [msgWithId_store, List.length_append, msgSize]
      omega

end

/-- Two clients are connected, and the scan has come to the first one. -/
def twoClients : SelectServer where
  servSock := 3
  reads := {3, 4, 5}
  cpyReads := {4}
  fdMax := 5
  i := 4
  buf := []
  pc := .scan
  opens := {0, 1, 2, 3, 4, 5}
  connected := {4, 5}

theorem broadcast_exact_hi : ExactBroadcast twoClients (utf8 "hi") :=
  (broadcast_exact_iff (by decide) (by decide) (by decide) _).mpr ⟨by decide, .inl (by decide)⟩

/-- A read that fills the array is terminated behind it, and of `h\0i` only `h` is passed on. -/
theorem chunk_not_passed_on :
    ¬ExactBroadcast twoClients (List.replicate 1024 97) ∧
      ¬ExactBroadcast twoClients [104, 0, 105] := by
  constructor
  · rintro ⟨-, -, hlen, -⟩
    rw [List.length_replicate] at hlen
    exact absurd hlen (by decide)
  · rintro ⟨hothers, -⟩
    exact absurd (hothers 5 (by decide) (by decide)) (by decide)

/-! ## 4. Along the runs -/

theorem Kept.connected {s : SelectServer} {r : ReadResult} (h : Kept s)
    (hp : Possible s (.read r)) : s.i ∈ s.connected := by
  obtain ⟨hr, hi, -⟩ := hp
  have hmem := h.ready hr
  rw [h.exact.1, Finset.mem_insert] at hmem
  exact hmem.resolve_left hi

/-- What holds of each possible step in a state that the loop keeps holds along its runs. -/
theorem Kept.each {Q : SelectServer → SelectAction → Prop}
    (hQ : ∀ {s a}, Kept s → Possible s a → Q s a) {as : List SelectAction} {s : SelectServer}
    (h : Kept s) (hp : Each selectNext Possible s as) (hn : Each selectNext NoFailure s as) :
    Each selectNext Q s as := by
  induction as generalizing s with
  | nil => trivial
  | cons a as ih => exact ⟨hQ h hp.1, ih (h.step hp.1 hn.1) hp.2 hn.2⟩

/-- In a run without the failures that the server does not look for, every chunk that is shorter
than the array and has no NUL reaches each other client as it is. -/
theorem broadcasts_reach {inherited : Finset Int} {servSock : Int} (buf : Bytes)
    (h : LowestFree inherited servSock) (hfit : servSock < fdSetSize) {as : List SelectAction}
    (hp : Each selectNext Possible (.init inherited servSock buf) as)
    (hn : Each selectNext NoFailure (.init inherited servSock buf) as) :
    Each selectNext
      (fun s a => ∀ bs, a = .read (.data bs) → bs.length < bufSize → 0 ∉ bs →
        ∀ j ∈ s.connected, j ≠ s.i →
          writtenTo j (selectStep s a).2 = [clientPrefix s.i ++ bs])
      (.init inherited servSock buf) as := by
  refine (kept_init buf h hfit).each (fun {s a} hk hp bs ha _ hnul j hj hne => ?_) hp hn
  subst ha
  rw [writtenTo_read hk.exact hk.listening, if_pos ⟨hj, hne⟩, cstr_eq_self_iff.mpr hnul]

end PosixLab.Select
