/-
# The size word of a peer

The first four bytes of a PDU are an `int` that the peer chooses. `readpdu` turns
down what is larger than `MAX_PDU` and takes everything else for the size of a
PDU, so the buffer and the reads that follow make sense exactly for the sizes that
are not smaller than the size word itself.
-/

import YfsLab.Connection.Reader

namespace YfsLab.Connection

open BigEndian Wire

/-- `read` returns no more than it has been asked for. -/
def Os.Lawful {Kernel : Type} (os : Os Kernel) : Prop :=
  ∀ n kernel bytes kernel', os.read n kernel = (.data bytes, kernel') → bytes.length ≤ n

/-- The buffer and the counters stand in order. -/
structure Charbuf.InBounds (rpdu : Charbuf) : Prop where
  sizeof_le : (sizeofRpcSz : ℤ) ≤ rpdu.solong
  solong_le : rpdu.solong ≤ rpdu.sz
  sz_le : rpdu.sz ≤ rpdu.capacity

/-- The number of bytes that a body read asks for. -/
def Charbuf.request (rpdu : Charbuf) : ℕ := sizeT (rpdu.sz - rpdu.solong)

/-- What `readpdu` sets up for a size word that it does not turn down. -/
def begun (word : Bytes) : Charbuf where
  buf := some word
  capacity := sizeT (ntohl word + sizeofRpcSz)
  sz := ntohl word
  solong := sizeofRpcSz

/-- The states that the body reads of a PDU go through, from the first read on. -/
inductive BodyState {Kernel : Type} (os : Os Kernel) (word : Bytes) : Charbuf → Prop
  | first : BodyState os word (begun word)
  | next {rpdu rpdu' : Charbuf} {kernel kernel' : Kernel} (prior : BodyState os word rpdu)
      (unfinished : rpdu.unfinished = true)
      (read : readBody os rpdu kernel = some (true, rpdu', kernel')) : BodyState os word rpdu'

/-- Whatever the socket does, the size word is turned down and nothing is kept. -/
def Rejects (word : Bytes) : Prop :=
  ∀ {Kernel : Type} (os : Os Kernel), os.Lawful → ∀ kernel kernel',
    os.read sizeofRpcSz kernel = (.data word, kernel') →
    readpdu os {} kernel = some (false, {}, kernel')

/-- Whatever the socket does, the size word is taken, a buffer is allocated, and at all
times the counters are in order and a body read asks for no more than there is room
for. -/
def Accepts (word : Bytes) : Prop :=
  ∀ {Kernel : Type} (os : Os Kernel), os.Lawful → ∀ kernel kernel',
    os.read sizeofRpcSz kernel = (.data word, kernel') →
    readpdu os {} kernel = readBody os (begun word) kernel' ∧
      ∀ rpdu, BodyState os word rpdu → rpdu.InBounds ∧
        (rpdu.request : ℤ) ≤ rpdu.capacity - rpdu.solong

/-- The first half of `readpdu`, for a size word that has arrived whole. -/
theorem readpdu_word {Kernel : Type} (os : Os Kernel) {kernel kernel' : Kernel} {word : Bytes}
    (hlength : word.length = sizeofRpcSz)
    (hread : os.read sizeofRpcSz kernel = (.data word, kernel')) :
    readpdu os {} kernel =
      if (maxPdu : ℤ) < ntohl word then some (false, {}, kernel')
      else if mallocMax < (begun word).capacity ∨ (begun word).capacity < sizeofRpcSz then none
      else readBody os (begun word) kernel' := by
  rw [readpdu, if_pos rfl]
  simp only [hread, hlength, ne_eq, not_true_eq_false, if_false, Option.isSome_none,
    Bool.false_eq_true]
  rfl

/-- The capacity of a size in the range. -/
theorem capacity_begun {word : Bytes} (hlow : (sizeofRpcSz : ℤ) ≤ ntohl word)
    (hhigh : ntohl word ≤ maxPdu) : ((begun word).capacity : ℤ) = ntohl word + sizeofRpcSz := by
  simp only [begun, sizeT, maxPdu, sizeofRpcSz] at hhigh hlow ⊢
  omega

/-- What is asked for in a state that is in bounds. -/
theorem Charbuf.InBounds.request_eq {rpdu : Charbuf} (h : rpdu.InBounds)
    (hsz : rpdu.sz ≤ maxPdu) : (rpdu.request : ℤ) = rpdu.sz - rpdu.solong := by
  have hsolong := h.solong_le
  have hsizeof := h.sizeof_le
  simp only [Charbuf.request, sizeT, maxPdu, sizeofRpcSz] at hsz hsizeof ⊢
  omega

/-- The body reads stay in bounds, and do not change the size and the allocation. -/
theorem BodyState.inBounds {Kernel : Type} {os : Os Kernel} (hos : os.Lawful) {word : Bytes}
    (hlow : (sizeofRpcSz : ℤ) ≤ ntohl word) (hhigh : ntohl word ≤ maxPdu) {rpdu : Charbuf}
    (h : BodyState os word rpdu) :
    rpdu.InBounds ∧ rpdu.sz = ntohl word ∧ rpdu.capacity = (begun word).capacity := by
  induction h with
  | first =>
      refine ⟨⟨le_refl _, hlow, ?_⟩, rfl, rfl⟩
      have hcapacity := capacity_begun hlow hhigh
      simp only [begun] at hcapacity ⊢
      rw [hcapacity]
      simp [sizeofRpcSz]
  | @next rpdu rpdu' kernel kernel' _ _ hread ih =>
      obtain ⟨hbounds, hsz, hcapacity⟩ := ih
      have hrequest := hbounds.request_eq (hsz ▸ hhigh)
      cases hresult : os.read (sizeT (rpdu.sz - rpdu.solong)) kernel with
      | mk result kernel'' =>
          simp only [readBody, hresult] at hread
          cases result with
          | data bytes =>
              obtain ⟨_, hsome⟩ := Option.ite_none_left_eq_some.mp hread
              cases hsome
              have hle : bytes.length ≤ rpdu.request := hos _ _ _ _ hresult
              have hsizeof := hbounds.sizeof_le
              exact ⟨⟨by simp only; omega, by simp only; omega, hbounds.sz_le⟩, hsz, hcapacity⟩
          | eof | fail =>
              simp only at hread
              split_ifs at hread
              · cases hread
                exact ⟨hbounds, hsz, hcapacity⟩
              · cases hread

theorem rejects_of_large {word : Bytes} (hlength : word.length = sizeofRpcSz)
    (hlarge : (maxPdu : ℤ) < ntohl word) : Rejects word := by
  intro Kernel os _ kernel kernel' hread
  rw [readpdu_word os hlength hread, if_pos hlarge]

theorem accepts_of_inRange {word : Bytes} (hlength : word.length = sizeofRpcSz)
    (hlow : (sizeofRpcSz : ℤ) ≤ ntohl word) (hhigh : ntohl word ≤ maxPdu) : Accepts word := by
  intro Kernel os hos kernel kernel' hread
  have hcapacity := capacity_begun hlow hhigh
  have hallocated : ¬ (mallocMax < (begun word).capacity ∨
      (begun word).capacity < sizeofRpcSz) := by
    simp only [mallocMax, maxPdu, sizeofRpcSz] at hhigh hlow hcapacity ⊢
    omega
  refine ⟨?_, fun rpdu hstate => ?_⟩
  · rw [readpdu_word os hlength hread, if_neg (not_lt.mpr hhigh), if_neg hallocated]
  · obtain ⟨hbounds, hsz, _⟩ := hstate.inBounds hos hlow hhigh
    have hrequest := hbounds.request_eq (hsz ▸ hhigh)
    have hroom := hbounds.sz_le
    exact ⟨hbounds, by omega⟩

/-- A peer that sends a size word and nothing else: the state says whether it has been
read. -/
def silentOs (word : Bytes) : Os Bool where
  read n done := (if n = sizeofRpcSz ∧ done = false then .data word else .fail, true)
  errno _ := .eagain

theorem silentOs_lawful {word : Bytes} (hlength : word.length = sizeofRpcSz) :
    (silentOs word).Lawful := by
  intro n done bytes done' hread
  by_cases hn : n = sizeofRpcSz ∧ done = false
  · simp only [silentOs, hn, and_self, if_true, Prod.mk.injEq, ReadResult.data.injEq] at hread
    rw [← hread.1, hlength, hn.1]
  · simp [silentOs, hn] at hread

/-- A size smaller than the size word is not turned down: the code goes on, or there is
no result. -/
theorem not_rejects_of_small {word : Bytes} (hlength : word.length = sizeofRpcSz)
    (hsmall : ntohl word < (sizeofRpcSz : ℤ)) : ¬ Rejects word := by
  intro hrejects
  have hread : (silentOs word).read sizeofRpcSz false = (.data word, true) := by
    simp [silentOs]
  have hresult := hrejects (silentOs word) (silentOs_lawful hlength) false true hread
  have hsize : ¬ (maxPdu : ℤ) < ntohl word := by
    simp only [maxPdu, sizeofRpcSz] at hsmall ⊢
    omega
  rw [readpdu_word _ hlength hread, if_neg hsize] at hresult
  split_ifs at hresult
  simp [readBody, silentOs] at hresult

/-- And it is not in order with the counters. -/
theorem not_accepts_of_small {word : Bytes} (hlength : word.length = sizeofRpcSz)
    (hsmall : ntohl word < (sizeofRpcSz : ℤ)) : ¬ Accepts word := by
  intro haccepts
  have hread : (silentOs word).read sizeofRpcSz false = (.data word, true) := by
    simp [silentOs]
  obtain ⟨_, hstates⟩ := haccepts (silentOs word) (silentOs_lawful hlength) false true hread
  have hle : (sizeofRpcSz : ℤ) ≤ ntohl word := (hstates _ .first).1.solong_le
  exact absurd hsmall (not_lt.mpr hle)

theorem ntohl_be32_eq (v : UInt32) : ntohl (be32 v) = v.toInt32.toInt := by
  simp only [ntohl, be32, ofBe32_be32]

/-- Length-prefix validation, for every word that a peer can send: it is turned down,
or taken so that the counters stay in order and no body read asks for more than there
is room for, exactly if the size it stands for is not smaller than the word itself. -/
theorem sizeWord_validated_iff (v : UInt32) :
    Rejects (be32 v) ∨ Accepts (be32 v) ↔ (sizeofRpcSz : ℤ) ≤ v.toInt32.toInt := by
  have hlength : (be32 v).length = sizeofRpcSz := rfl
  rw [← ntohl_be32_eq]
  constructor
  · intro hvalidated
    by_contra hsmall
    rcases hvalidated with hrejects | haccepts
    · exact not_rejects_of_small hlength (not_le.mp hsmall) hrejects
    · exact not_accepts_of_small hlength (not_le.mp hsmall) haccepts
  · intro hlow
    rcases lt_or_ge (maxPdu : ℤ) (ntohl (be32 v)) with hlarge | hhigh
    · exact .inl (rejects_of_large hlength hlarge)
    · exact .inr (accepts_of_inRange hlength hlow hhigh)

/-- A size word of two. -/
theorem sizeWord_two_not_validated : ¬ (Rejects (be32 2) ∨ Accepts (be32 2)) := by
  have hsmall : ntohl (be32 2) < (sizeofRpcSz : ℤ) := by decide
  rintro (hrejects | haccepts)
  · exact not_rejects_of_small rfl hsmall hrejects
  · exact not_accepts_of_small rfl hsmall haccepts

end YfsLab.Connection
