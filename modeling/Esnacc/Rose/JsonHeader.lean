import Esnacc.Lib.BitString

/-!
The header in front of a JSON body: `J` and the length of the body in seven decimal digits. The
receiver finds out how long the header is by scanning digits, and the scan tests its position
against the length of the buffer with an inequality that lets it read one octet behind.
-/

namespace Esnacc

open BitString

namespace JsonFraming

/-- `'0' <= c && c <= '9'`. -/
def isDigit (c : Octet) : Bool := decide (0x30 ≤ c.toNat ∧ c.toNat ≤ 0x39)

/-- `'J'`. -/
def letterJ : Octet := 0x4A

/-- The loop of `GetJsonHeaderLen`, and the positions it reads. -/
def headerLoop (lpBytes : ℕ → Octet) (iLength : ℕ) : ℕ → ℕ → ℕ → ℕ × List ℕ
  | 0, _, iLen => (iLen, [])
  | rounds + 1, i, iLen =>
      if iLen ≤ iLength then
        if isDigit (lpBytes i) then
          let r := headerLoop lpBytes iLength rounds (i + 1) (iLen + 1)
          (r.1, i :: r.2)
        else (iLen, [i])
      else (iLen, [])

/-- `GetJsonHeaderLen`, of the memory from `lpBytes` on. The second component lists the positions
that are read. -/
def getJsonHeaderLen (lpBytes : ℕ → Octet) (iLength : ℕ) : ℕ × List ℕ :=
  if lpBytes 0 = letterJ then
    let r := headerLoop lpBytes iLength 9 1 1
    (r.1, 0 :: r.2)
  else (0, [0])

/-- The text of a number with at least seven digits, as `%07zd` prints it. -/
def sevenDigits (n : ℕ) : List Octet :=
  let digits := (Nat.toDigits 10 n).map fun c => BitVec.ofNat 8 c.toNat
  List.replicate (7 - digits.length) 0x30 ++ digits

/-- `GetJsonLengthPrefix`: nothing when it returns `ROSE_TE_ENCODE_FAILED`. -/
def getJsonLengthPrefix (strJson : List Octet) : Option (List Octet) :=
  if strJson.length > 9999999 then none else some (letterJ :: sevenDigits strJson.length)

/-- A buffer in memory, with what stands behind it. -/
def memory (buffer : List Octet) (beyond : ℕ → Octet) (i : ℕ) : Octet :=
  buffer.getD i (beyond (i - buffer.length))

/-! ### The scan -/

/-- Where the scan that starts at `i` ends, and what it has read. -/
structure Scanned (lpBytes : ℕ → Octet) (iLength rounds i : ℕ) (r : ℕ × List ℕ) : Prop where
  ge : i ≤ r.1
  le : r.1 ≤ i + rounds
  digits : ∀ j, i ≤ j → j < r.1 → isDigit (lpBytes j) = true
  stops : r.1 = i + rounds ∨ iLength < r.1 ∨ (isDigit (lpBytes r.1) = false ∧ r.1 ∈ r.2)
  reads : ∀ j ∈ r.2, j ≤ r.1 ∧ j < i + rounds

theorem headerLoop_scanned (lpBytes : ℕ → Octet) (iLength rounds i : ℕ) :
    Scanned lpBytes iLength rounds i (headerLoop lpBytes iLength rounds i i) := by
  induction rounds generalizing i with
  | zero =>
      exact ⟨le_rfl, le_rfl, fun j hj hlt => absurd hlt (Nat.not_lt.mpr hj), .inl rfl,
        by simp [headerLoop]⟩
  | succ rounds ih =>
      rw [headerLoop]
      by_cases hle : i ≤ iLength
      · by_cases hdigit : isDigit (lpBytes i) = true
        · rw [if_pos hle, if_pos hdigit]
          obtain ⟨hge, htop, hdigits, hstops, hreads⟩ := ih (i + 1)
          refine ⟨Nat.le_of_succ_le hge, htop.trans (by omega), fun j hj hlt => ?_, ?_,
            fun j hj => ?_⟩
          · rcases Nat.eq_or_lt_of_le hj with rfl | hj
            · exact hdigit
            · exact hdigits j hj hlt
          · rcases hstops with hstop | hstop | ⟨hstop, hmem⟩
            · exact .inl (by rw [hstop]; omega)
            · exact .inr (.inl hstop)
            · exact .inr (.inr ⟨hstop, List.mem_cons_of_mem _ hmem⟩)
          · rcases List.mem_cons.mp hj with rfl | hj
            · exact ⟨Nat.le_of_succ_le hge, by omega⟩
            · obtain ⟨hle, hlt⟩ := hreads j hj
              exact ⟨hle, by omega⟩
        · rw [if_pos hle, if_neg hdigit]
          refine ⟨le_rfl, by omega, fun j hj hlt => absurd hlt (Nat.not_lt.mpr hj),
            .inr (.inr ⟨?_, ?_⟩), ?_⟩
          · exact Bool.eq_false_iff.mpr hdigit
          · exact List.mem_singleton_self i
          · intro j hj
            rw [List.mem_singleton.mp hj]
            exact ⟨le_rfl, by omega⟩
      · rw [if_neg hle]
        exact ⟨le_rfl, by omega, fun j hj hlt => absurd hlt (Nat.not_lt.mpr hj),
          .inr (.inl (Nat.not_le.mp hle)), by simp⟩

/-! ### The prefix -/

theorem isDigit_ofNat {c : Char} (h : c.isDigit = true) :
    isDigit (BitVec.ofNat 8 c.toNat) = true := by
  have hbounds : 48 ≤ c.toNat ∧ c.toNat ≤ 57 := by
    simpa [Char.isDigit, UInt32.le_iff_toNat_le] using h
  have hmod : c.toNat % 2 ^ 8 = c.toNat := Nat.mod_eq_of_lt (by omega)
  rw [isDigit, BitVec.toNat_ofNat, hmod]
  exact decide_eq_true hbounds

theorem isDigit_of_mem_sevenDigits {n : ℕ} {o : Octet} (h : o ∈ sevenDigits n) :
    isDigit o = true := by
  rcases List.mem_append.mp h with h | h
  · rw [List.eq_of_mem_replicate h]
    decide
  · obtain ⟨c, hc, rfl⟩ := List.mem_map.mp h
    exact isDigit_ofNat (Nat.isDigit_of_mem_toDigits (by decide) (by decide) hc)

theorem length_sevenDigits {n : ℕ} (h : n ≤ 9999999) : (sevenDigits n).length = 7 := by
  have hle : (Nat.toDigits 10 n).length ≤ 7 :=
    (Nat.length_toDigits_le_iff (by decide) (by decide)).mpr (by omega)
  simp only [sevenDigits, List.length_append, List.length_replicate, List.length_map]
  omega

/-! ### Framing -/

/-- What is scanned from a prefix and the body behind it is the prefix, and the body is what is left
of the message without it. -/
def ReadsBack (beyond : ℕ → Octet) (body : List Octet) : Prop :=
  ∀ lengthPrefix, getJsonLengthPrefix body = some lengthPrefix →
    (getJsonHeaderLen (memory (lengthPrefix ++ body) beyond)
      (lengthPrefix ++ body).length).1 = lengthPrefix.length ∧
    (lengthPrefix ++ body).drop (getJsonHeaderLen (memory (lengthPrefix ++ body) beyond)
      (lengthPrefix ++ body).length).1 = body

/-- The header is within the buffer, and so is what is read. -/
def StaysInside (beyond : ℕ → Octet) (buffer : List Octet) : Prop :=
  (getJsonHeaderLen (memory buffer beyond) buffer.length).1 ≤ buffer.length ∧
    ∀ i ∈ (getJsonHeaderLen (memory buffer beyond) buffer.length).2, i < buffer.length

/-- There is an octet before the end that ends the scan, or room for all of it. -/
def Delimited (buffer : List Octet) : Prop :=
  buffer ≠ [] ∧ (buffer.head? = some letterJ → buffer.length < 10 →
    ∃ i, 1 ≤ i ∧ ∃ o, buffer[i]? = some o ∧ isDigit o = false)

theorem memory_of_lt {buffer : List Octet} {i : ℕ} (h : i < buffer.length) (beyond : ℕ → Octet) :
    memory buffer beyond i = buffer[i] := List.getD_eq_getElem _ _ h

theorem memory_behind (front rest : List Octet) (beyond : ℕ → Octet) :
    memory (front ++ rest) beyond front.length = rest.headD (beyond 0) := by
  rw [memory, List.getD_append_right _ _ _ _ le_rfl, Nat.sub_self]
  cases rest <;> simp

theorem getJsonHeaderLen_of_ne {lpBytes : ℕ → Octet} (h : lpBytes 0 ≠ letterJ) (iLength : ℕ) :
    getJsonHeaderLen lpBytes iLength = (0, [0]) := if_neg h

theorem getJsonHeaderLen_scanned {lpBytes : ℕ → Octet} (h : lpBytes 0 = letterJ) (iLength : ℕ) :
    ∃ r, Scanned lpBytes iLength 9 1 r ∧
      getJsonHeaderLen lpBytes iLength = (r.1, 0 :: r.2) :=
  ⟨_, headerLoop_scanned lpBytes iLength 9 1, if_pos h⟩

/-- A scan behind the letter stays in the buffer exactly when something ends it there. -/
theorem staysInside_scanned {beyond : ℕ → Octet} {buffer : List Octet} {r : ℕ × List ℕ}
    (hscan : Scanned (memory (letterJ :: buffer) beyond) (letterJ :: buffer).length 9 1 r) :
    (r.1 ≤ (letterJ :: buffer).length ∧ ∀ i ∈ 0 :: r.2, i < (letterJ :: buffer).length) ↔
      Delimited (letterJ :: buffer) := by
  have hpos : 0 < (letterJ :: buffer).length := Nat.succ_pos _
  constructor
  · rintro ⟨hlen, hreads⟩
    refine ⟨List.cons_ne_nil _ _, fun _ hshort => ?_⟩
    rcases hscan.stops with hstop | hstop | ⟨hstop, hmem⟩
    · omega
    · omega
    · have hlt := hreads r.1 (List.mem_cons_of_mem _ hmem)
      rw [memory_of_lt hlt] at hstop
      exact ⟨r.1, hscan.ge, _, List.getElem?_eq_getElem hlt, hstop⟩
  · rintro ⟨-, hends⟩
    by_cases hshort : (letterJ :: buffer).length < 10
    · obtain ⟨i, hi, o, ho, hdigit⟩ := hends rfl hshort
      obtain ⟨hlt, rfl⟩ := List.getElem?_eq_some_iff.mp ho
      have hle : r.1 ≤ i := by
        by_contra hgt
        have htrue := hscan.digits i hi (Nat.not_le.mp hgt)
        rw [memory_of_lt hlt, hdigit] at htrue
        cases htrue
      refine ⟨by omega, List.forall_mem_cons.mpr ⟨hpos, fun j hj => ?_⟩⟩
      have hj := (hscan.reads j hj).1
      omega
    · have hle := hscan.le
      refine ⟨by omega, List.forall_mem_cons.mpr ⟨hpos, fun j hj => ?_⟩⟩
      have hj := (hscan.reads j hj).2
      omega

theorem staysInside_iff (beyond : ℕ → Octet) (buffer : List Octet) :
    StaysInside beyond buffer ↔ Delimited buffer := by
  cases buffer with
  | nil =>
      refine iff_of_false (fun h => ?_) fun h => h.1 rfl
      have hzero : 0 ∈ (getJsonHeaderLen (memory [] beyond) 0).2 := by
        rw [getJsonHeaderLen]
        split <;> exact List.mem_cons_self
      exact Nat.not_lt_zero 0 (h.2 0 hzero)
  | cons o buffer =>
      by_cases hJ : o = letterJ
      · subst hJ
        obtain ⟨r, hscan, hr⟩ := getJsonHeaderLen_scanned
          (show memory (letterJ :: buffer) beyond 0 = letterJ from rfl) (letterJ :: buffer).length
        rw [StaysInside, hr]
        exact staysInside_scanned hscan
      · have hne : memory (o :: buffer) beyond 0 ≠ letterJ := hJ
        refine iff_of_true ?_ ⟨List.cons_ne_nil _ _, fun h => absurd (Option.some.inj h) hJ⟩
        rw [StaysInside, getJsonHeaderLen_of_ne hne]
        simp

/-- The octet behind the prefix is not a digit: the first one of the body, or, for an empty body,
what stands behind the message. -/
def EndsPrefix (beyond : ℕ → Octet) (body : List Octet) : Prop :=
  isDigit (body.headD (beyond 0)) = false

section Framed

variable {body : List Octet} (hlong : body.length ≤ 9999999)

include hlong

theorem length_framed : (letterJ :: sevenDigits body.length).length = 8 := by
  simp [length_sevenDigits hlong]

theorem isDigit_framed (beyond : ℕ → Octet) {i : ℕ} (hi : 1 ≤ i) (hi8 : i < 8) :
    isDigit (memory (letterJ :: sevenDigits body.length ++ body) beyond i) = true := by
  have hlength := length_framed hlong
  obtain ⟨i, rfl⟩ := Nat.exists_eq_add_one_of_ne_zero (Nat.ne_of_gt hi)
  have hlt : i < (sevenDigits body.length).length := by
    rw [List.length_cons] at hlength
    omega
  rw [memory_of_lt (by simp only [List.cons_append, List.length_cons, List.length_append]; omega)]
  refine isDigit_of_mem_sevenDigits (n := body.length) ?_
  simp only [List.cons_append, List.getElem_cons_succ, List.getElem_append_left hlt]
  exact List.getElem_mem hlt

/-- The digits of the prefix are passed, and the octet behind it decides. -/
theorem scanned_framed_iff {beyond : ℕ → Octet} {r : ℕ × List ℕ}
    (hscan : Scanned (memory (letterJ :: sevenDigits body.length ++ body) beyond)
      (letterJ :: sevenDigits body.length ++ body).length 9 1 r) :
    r.1 = 8 ↔ EndsPrefix beyond body := by
  have hlength := length_framed hlong
  have htotal : (letterJ :: sevenDigits body.length ++ body).length = 8 + body.length := by
    rw [List.length_append, hlength]
  have hnext : memory (letterJ :: sevenDigits body.length ++ body) beyond 8 =
      body.headD (beyond 0) := by
    rw [← hlength]
    exact memory_behind _ body beyond
  have hge : 8 ≤ r.1 := by
    by_contra hlt
    rcases hscan.stops with hstop | hstop | ⟨hstop, -⟩
    · omega
    · omega
    · rw [isDigit_framed hlong beyond hscan.ge (by omega)] at hstop
      cases hstop
  rw [EndsPrefix, ← hnext]
  constructor
  · intro h
    rcases hscan.stops with hstop | hstop | ⟨hstop, -⟩
    · omega
    · omega
    · rwa [h] at hstop
  · intro h
    by_contra hne
    rw [hscan.digits 8 (by omega) (by omega)] at h
    cases h

end Framed

theorem readsBack_framed_iff (beyond : ℕ → Octet) (body : List Octet) :
    ReadsBack beyond body ↔ (body.length ≤ 9999999 → EndsPrefix beyond body) := by
  by_cases hlong : body.length ≤ 9999999
  swap
  · refine iff_of_true (fun lengthPrefix h => ?_) fun h => absurd h hlong
    rw [getJsonLengthPrefix, if_pos (Nat.not_le.mp hlong)] at h
    cases h
  have hfront : getJsonLengthPrefix body = some (letterJ :: sevenDigits body.length) :=
    if_neg (Nat.not_lt.mpr hlong)
  have hlength := length_framed hlong
  obtain ⟨r, hscan, hr⟩ := getJsonHeaderLen_scanned (show memory
    (letterJ :: sevenDigits body.length ++ body) beyond 0 = letterJ from rfl)
    (letterJ :: sevenDigits body.length ++ body).length
  have height := scanned_framed_iff hlong hscan
  rw [ReadsBack]
  refine ⟨fun h _ => height.mp ?_, fun h lengthPrefix hsome => ?_⟩
  · have hread := (h _ hfront).1
    rwa [hr, hlength] at hread
  · obtain rfl := Option.some.inj (hfront.symm.trans hsome)
    rw [hr, hlength]
    have h8 := height.mpr (h hlong)
    exact ⟨h8, by rw [h8, ← hlength, List.drop_left]⟩

/-- The scan comes to the end of the prefix exactly when no digit follows, and it stays in the
buffer exactly when something ends it there. -/
theorem framing_iff (beyond : ℕ → Octet) :
    (∀ body, ReadsBack beyond body ↔ (body.length ≤ 9999999 → EndsPrefix beyond body)) ∧
      ∀ buffer, StaysInside beyond buffer ↔ Delimited buffer :=
  ⟨readsBack_framed_iff beyond, staysInside_iff beyond⟩

/-- The body `5`, and the buffer `J1` with another digit behind it, for which the header is longer
than the buffer. -/
theorem not_framing : (¬ ∀ beyond body, ReadsBack beyond body) ∧
    ¬ ∀ beyond buffer, StaysInside beyond buffer := by
  constructor
  · intro h
    have hfive := (readsBack_framed_iff (fun _ => 0) [0x35]).mp (h _ _) (by decide)
    rw [EndsPrefix] at hfive
    exact absurd hfive (by decide)
  · intro h
    exact absurd (h (fun _ => 0x30) [letterJ, 0x31]).1 (by decide)

end JsonFraming

end Esnacc
