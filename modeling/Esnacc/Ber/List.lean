import Esnacc.Ber.TagLen

/-!
Lists under the basic encoding rules, decoded from contents of a given length and from
contents that are closed by two zero octets.
-/

namespace Esnacc

open BitString

/-- The encoding and the decoder of the elements: the decoder reads the octets of an
encoding, neither more nor less, and counts them; and an encoding begins with a tag. -/
structure ElementCodec (T : Type) where
  bEnc : T → List Octet
  bDec : ℕ → BerM (T × ℕ)
  reads : ∀ x n past rest, Cursor.Reads past rest (bDec n) (bEnc x) (x, n + (bEnc x).length)
  tag : ∀ x, ∃ o os, bEnc x = o :: os ∧ o ≠ 0

namespace AsnList

variable {T : Type}

/-- The loop of `BDecContent`; the fuel bounds the number of its passes. -/
def loop (bDec : ℕ → BerM (T × ℕ)) (elmtLen : ℕ) : ℕ → List T → ℕ → BerM (List T × ℕ)
  | 0, _, _ => throw (.undefinedBehaviour "the loop does not end")
  | fuel + 1, value, localBytesDecoded =>
      let next : BerM (List T × ℕ) := do
        let r ← bDec localBytesDecoded
        loop bDec elmtLen fuel (value ++ [r.1]) r.2
      if elmtLen = indefiniteLen then do
        let ch ← AsnBuf.peekByte
        if ch = 0 then
          let n ← bDecEoc localBytesDecoded
          return (value, n)
        else next
      else if localBytesDecoded < elmtLen then next
      else return (value, localBytesDecoded)

def bDecContent (bDec : ℕ → BerM (T × ℕ)) (elmtLen : ℕ) (value : List T) (bytesDecoded : ℕ) :
    BerM (List T × ℕ) := fun b =>
  (do
    let r ← loop bDec elmtLen (b.rest.length + 1) value 0
    return (r.1, bytesDecoded + r.2)).run b

variable (C : ElementCodec T)

/-- The contents that `BEncContent` writes. -/
def contents (value : List T) : List Octet := value.flatMap C.bEnc

/-- The list is decoded from both forms of its encoding, exactly. -/
def DecodesBothForms (value prior : List T) (past rest : List Octet) (n : ℕ) : Prop :=
  Cursor.Reads past rest (bDecContent C.bDec (contents C value).length prior n)
    (contents C value) (prior ++ value, n + (contents C value).length) ∧
  Cursor.Reads past rest (bDecContent C.bDec indefiniteLen prior n)
    (contents C value ++ [0, 0]) (prior ++ value, n + (contents C value ++ [0, 0]).length)

variable {C}

theorem length_bEnc_pos (x : T) : 0 < (C.bEnc x).length := by
  obtain ⟨o, os, h, -⟩ := C.tag x
  simp [h]

/-- With a length given the loop reads the contents. -/
theorem loop_reads_definite {elmtLen : ℕ} (helmt : elmtLen ≠ indefiniteLen) (value : List T)
    (prior : List T) (past rest : List Octet) (n fuel : ℕ)
    (hlen : n + (contents C value).length = elmtLen) (hfuel : (contents C value).length < fuel) :
    Cursor.Reads past rest (loop C.bDec elmtLen fuel prior n) (contents C value)
      (prior ++ value, elmtLen) := by
  induction value generalizing prior past n fuel with
  | nil =>
      obtain ⟨fuel, rfl⟩ : ∃ k, fuel = k + 1 := ⟨fuel - 1, by omega⟩
      obtain rfl : n = elmtLen := hlen
      simp only [loop, if_neg helmt, lt_irrefl, if_false]
      rw [List.append_nil]
      exact Cursor.Reads.pure _ _ _
  | cons x value ih =>
      have hpos := length_bEnc_pos (C := C) x
      have hsplit : contents C (x :: value) = C.bEnc x ++ contents C value := List.flatMap_cons
      rw [hsplit, List.length_append] at hlen hfuel
      obtain ⟨fuel, rfl⟩ : ∃ k, fuel = k + 1 := ⟨fuel - 1, by omega⟩
      have hmore : n < elmtLen := by omega
      simp only [loop, if_neg helmt, if_pos hmore]
      rw [hsplit]
      refine (C.reads x n past _).bind ?_
      rw [show prior ++ x :: value = (prior ++ [x]) ++ value by simp]
      exact ih (prior ++ [x]) _ (n + (C.bEnc x).length) fuel (by omega) (by omega)

/-- Without a length the loop stops behind the first of the two zero octets and counts
both. -/
theorem loop_reads_indefinite (value : List T) (prior : List T) (past rest : List Octet)
    (n fuel : ℕ) (hfuel : (contents C value).length < fuel) :
    Cursor.Reads past rest (loop C.bDec indefiniteLen fuel prior n) (contents C value ++ [0])
      (prior ++ value, n + (contents C value).length + 2) := by
  induction value generalizing prior past n fuel with
  | nil =>
      obtain ⟨fuel, rfl⟩ : ∃ k, fuel = k + 1 := ⟨fuel - 1, by omega⟩
      rw [List.append_nil]
      refine AsnBuf.peekByte_bind_reads rfl ?_
      rw [if_pos rfl]
      exact (bDecEoc_reads past rest n).bind_pure fun n => (prior, n)
  | cons x value ih =>
      obtain ⟨o, os, htag, hne⟩ := C.tag x
      have hpos := length_bEnc_pos (C := C) x
      have hsplit : contents C (x :: value) = C.bEnc x ++ contents C value := List.flatMap_cons
      rw [hsplit, List.length_append] at hfuel
      obtain ⟨fuel, rfl⟩ : ∃ k, fuel = k + 1 := ⟨fuel - 1, by omega⟩
      rw [hsplit, List.append_assoc, List.length_append, ← add_assoc n]
      refine AsnBuf.peekByte_bind_reads (by rw [htag]; rfl) ?_
      rw [if_neg hne]
      refine (C.reads x n past _).bind ?_
      rw [show prior ++ x :: value = (prior ++ [x]) ++ value by simp]
      exact ih (prior ++ [x]) _ (n + (C.bEnc x).length) fuel (by omega)

/-- The form with a length is decoded exactly. -/
theorem bDecContent_definite {value : List T}
    (h : (contents C value).length ≠ indefiniteLen) (prior : List T) (past rest : List Octet)
    (n : ℕ) :
    Cursor.Reads past rest (bDecContent C.bDec (contents C value).length prior n)
      (contents C value) (prior ++ value, n + (contents C value).length) := by
  have hloop := loop_reads_definite (C := C) h value prior past rest 0
    ((contents C value ++ rest).length + 1) (by omega) (by rw [List.length_append]; omega)
  exact hloop.bind_pure fun r => (r.1, n + r.2)

/-- The form without a length yields the same list, and leaves an octet of the encoding
behind. -/
theorem bDecContent_indefinite (value prior : List T) (past rest : List Octet) (n : ℕ) :
    Cursor.Reads past (0 :: rest) (bDecContent C.bDec indefiniteLen prior n)
      (contents C value ++ [0])
      (prior ++ value, n + (contents C value ++ [0, 0]).length) := by
  have hloop := loop_reads_indefinite (C := C) value prior past (0 :: rest) 0
    ((contents C value ++ [0] ++ 0 :: rest).length + 1)
    (by simp only [List.length_append]; omega)
  have h := hloop.bind_pure fun r => (r.1, n + r.2)
  rw [zero_add] at h
  rw [List.length_append]
  exact h

theorem not_decodesBothForms (value prior : List T) (past rest : List Octet) (n : ℕ) :
    ¬ DecodesBothForms C value prior past rest n := by
  rintro ⟨-, hexact⟩
  have hshort := bDecContent_indefinite (C := C) value prior past rest n
  rw [Cursor.Reads] at hexact hshort
  have hsame : contents C value ++ [0, 0] ++ rest = contents C value ++ [0] ++ 0 :: rest := by simp
  rw [hsame] at hexact
  have hrest := congrArg Cursor.rest (Prod.mk.inj (Except.ok.inj (hexact.symm.trans hshort))).2
  exact (List.cons_ne_self 0 rest) hrest.symm

/-- BOOLEAN, as far as it is needed here: a tag, a length and one octet. -/
def boolean : ElementCodec Octet where
  bEnc x := [1, 1, x]
  bDec n := do
    let _ ← AsnBuf.getByte
    let _ ← AsnBuf.getByte
    let x ← AsnBuf.getByte
    return (x, n + 3)
  reads x n past rest := rfl
  tag x := ⟨1, [1, x], rfl, by decide⟩

/-- A list of one BOOLEAN. -/
theorem not_forall_decodesBothForms : ¬ ∀ (T : Type) (C : ElementCodec T) (value prior : List T)
    (past rest : List Octet) (n : ℕ), DecodesBothForms C value prior past rest n := by
  intro h
  obtain ⟨-, hexact⟩ := h Octet boolean [0xFF] [] [] [] 0
  have hrest := congrArg (fun r => r.toOption.map fun r => r.2.rest) hexact
  exact absurd hrest (by decide)

end AsnList

end Esnacc
