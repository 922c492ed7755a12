import Esnacc.Ts.Framing
import Esnacc.Lib.Deframe

/-!
What the frames of a TCP connection are: `J`, seven decimal digits and a payload of this
length, or the encoding of a ROSE message, with a length of at most four octets below 2^31.
What is no frame is skipped octet by octet. The loop of `handleFraming` is compared with this.
-/

namespace Esnacc.Ts

open BitString

/-- What a buffer starts with. -/
inductive Header
  | wait
  | frame (f : Frame) (size : ℕ)
  /-- No frame starts with this octet. -/
  | junk
  /-- `J`, and no length behind it. -/
  | badDigits
  /-- `J`, and seven octets that are not digits, but taken for a length by `parseInt`. -/
  | laxDigits (payloadLength : ℕ)
  /-- The indefinite form, or more than four octets for a length. -/
  | badForm
  /-- A length of 2^31 or more. -/
  | overlong
  deriving DecidableEq, Repr

/-- An ASCII digit, without a highest bit that would be masked. -/
def isDigitOctet (o : Octet) : Bool := isDigit o.toNat

def jsonHeader (b : List Octet) : Header :=
  let digits := (b.drop 1).take 7
  if b.length < 8 then .wait
  else if digits.all isDigitOctet then
    let payloadLength := decimal (digits.map BitVec.toNat)
    if b.length < 8 + payloadLength then .wait
    else .frame ((b.drop 8).take payloadLength) (8 + payloadLength)
  else
    match parseInt (digits.map asciiCode) with
    | none => .badDigits
    | some n => if n < 0 then .badDigits else .laxDigits n.toNat

def roseHeader (b : List Octet) : Header :=
  match b.drop 1 with
  | [] => .wait
  | l :: rest =>
      if l.toNat < 128 then
        if b.length < 2 + l.toNat then .wait else .frame (b.take (2 + l.toNat)) (2 + l.toNat)
      else
        let k := l.toNat - 128
        if k = 0 ∨ 4 < k then .badForm
        else if rest.length < k then .wait
        else
          let n := natOfOctets (rest.take k)
          if 2 ^ 31 ≤ n then .overlong
          else if b.length < 2 + k + n then .wait
          else .frame (b.take (2 + k + n)) (2 + k + n)

def header (b : List Octet) : Header :=
  match b with
  | [] => .wait
  | first :: _ =>
      if first = frameStartJson then jsonHeader b
      else if isRoseTag first then roseHeader b
      else .junk

/-- A header that is malformed is skipped as any other octet that starts no frame. -/
def Header.front : Header → Framer.Front Frame
  | wait => .wait
  | frame f n => .frame f n
  | junk | badDigits | laxDigits _ | badForm | overlong => .skip

/-! ### Headers are decided once -/

theorem jsonHeader_append {b : List Octet} (h : jsonHeader b ≠ .wait) (t : List Octet) :
    jsonHeader (b ++ t) = jsonHeader b := by
  have hlong : ¬b.length < 8 := by
    intro hshort
    exact h (by simp [jsonHeader, hshort])
  have hdigits : ((b ++ t).drop 1).take 7 = (b.drop 1).take 7 := by
    rw [List.drop_append_of_le_length (by omega), List.take_append_of_le_length]
    simp only [List.length_drop]
    omega
  have hlong' : ¬(b ++ t).length < 8 := by
    simp only [List.length_append]
    omega
  simp only [jsonHeader, hlong, hlong', hdigits, if_false] at h ⊢
  by_cases hall : ((b.drop 1).take 7).all isDigitOctet
  · simp only [hall, if_true] at h ⊢
    have hle : ¬b.length < 8 + decimal (((b.drop 1).take 7).map BitVec.toNat) := by
      intro hlt
      exact h (if_pos hlt)
    have hle' : ¬(b ++ t).length < 8 + decimal (((b.drop 1).take 7).map BitVec.toNat) := by
      simp only [List.length_append]
      omega
    rw [if_neg hle, if_neg hle', List.drop_append_of_le_length (by omega),
      List.take_append_of_le_length]
    simp only [List.length_drop]
    omega
  · rw [if_neg hall, if_neg hall]

theorem roseHeader_append {b : List Octet} (h : roseHeader b ≠ .wait) (t : List Octet) :
    roseHeader (b ++ t) = roseHeader b := by
  cases b with
  | nil => exact absurd rfl h
  | cons first rest =>
      cases rest with
      | nil => exact absurd rfl h
      | cons l rest =>
          simp only [roseHeader, List.cons_append, List.drop_succ_cons, List.drop_zero] at h ⊢
          by_cases hshort : l.toNat < 128
          · simp only [hshort, if_true] at h ⊢
            by_cases hwait : (first :: l :: rest).length < 2 + l.toNat
            · exact absurd (if_pos hwait) h
            · have hwait' : ¬(first :: l :: (rest ++ t)).length < 2 + l.toNat := by
                simp only [List.length_cons, List.length_append] at hwait ⊢
                omega
              rw [if_neg hwait, if_neg hwait', ← List.cons_append, ← List.cons_append,
                List.take_append_of_le_length (by omega)]
          · simp only [hshort, if_false] at h ⊢
            by_cases hform : l.toNat - 128 = 0 ∨ 4 < l.toNat - 128
            · simp only [hform, if_true]
            · simp only [hform, if_false] at h ⊢
              by_cases hmore : rest.length < l.toNat - 128
              · exact absurd (if_pos hmore) h
              · have hmore' : ¬(rest ++ t).length < l.toNat - 128 := by
                  simp only [List.length_append]
                  omega
                have htake : (rest ++ t).take (l.toNat - 128) = rest.take (l.toNat - 128) :=
                  List.take_append_of_le_length (by omega)
                simp only [hmore, hmore', htake, if_false] at h ⊢
                by_cases hover : 2 ^ 31 ≤ natOfOctets (rest.take (l.toNat - 128))
                · simp only [hover, if_true]
                · simp only [hover, if_false] at h ⊢
                  by_cases hwait : (first :: l :: rest).length <
                      2 + (l.toNat - 128) + natOfOctets (rest.take (l.toNat - 128))
                  · exact absurd (if_pos hwait) h
                  · have hwait' : ¬(first :: l :: (rest ++ t)).length <
                        2 + (l.toNat - 128) + natOfOctets (rest.take (l.toNat - 128)) := by
                      simp only [List.length_cons, List.length_append] at hwait ⊢
                      omega
                    rw [if_neg hwait, if_neg hwait', ← List.cons_append, ← List.cons_append,
                      List.take_append_of_le_length (by omega)]

/-- A header that is decided stays as it is when more arrives. -/
theorem header_append {b : List Octet} (h : header b ≠ .wait) (t : List Octet) :
    header (b ++ t) = header b := by
  cases b with
  | nil => exact absurd rfl h
  | cons first rest =>
      simp only [header, List.cons_append] at h ⊢
      by_cases hjson : first = frameStartJson
      · simp only [hjson, if_true] at h ⊢
        exact jsonHeader_append h t
      · simp only [hjson, if_false] at h ⊢
        by_cases hrose : isRoseTag first = true
        · simp only [hrose, if_true] at h ⊢
          exact roseHeader_append h t
        · rw [if_neg hrose, if_neg hrose]

theorem size_of_jsonHeader {b : List Octet} {f : Frame} {n : ℕ} (h : jsonHeader b = .frame f n) :
    0 < n ∧ n ≤ b.length := by
  simp only [jsonHeader] at h
  split at h
  · cases h
  · split at h
    · split at h
      · cases h
      · cases h
        omega
    · split at h
      · cases h
      · split at h <;> cases h

theorem size_of_roseHeader {b : List Octet} {f : Frame} {n : ℕ} (h : roseHeader b = .frame f n) :
    0 < n ∧ n ≤ b.length := by
  have hframe {p : Prop} [Decidable p] {g : Frame} {k : ℕ} (hk : 0 < k) (hp : p ∨ k ≤ b.length)
      (heq : (if p then Header.wait else .frame g k) = .frame f n) : 0 < n ∧ n ≤ b.length := by
    split at heq
    · cases heq
    · next hno =>
        cases heq
        exact ⟨hk, hp.resolve_left hno⟩
  rw [roseHeader] at h
  split at h
  · cases h
  · next l rest _ =>
      by_cases hshort : l.toNat < 128
      · rw [if_pos hshort] at h
        exact hframe (by omega) (lt_or_ge _ _) h
      · rw [if_neg hshort] at h
        dsimp only at h
        by_cases hform : l.toNat - 128 = 0 ∨ 4 < l.toNat - 128
        · rw [if_pos hform] at h
          cases h
        · rw [if_neg hform] at h
          by_cases hmore : rest.length < l.toNat - 128
          · rw [if_pos hmore] at h
            cases h
          · rw [if_neg hmore] at h
            by_cases hover : 2 ^ 31 ≤ natOfOctets (rest.take (l.toNat - 128))
            · rw [if_pos hover] at h
              cases h
            · rw [if_neg hover] at h
              exact hframe (by omega) (lt_or_ge _ _) h

theorem size_of_frame {b : List Octet} {f : Frame} {n : ℕ} (h : header b = .frame f n) :
    0 < n ∧ n ≤ b.length := by
  cases b with
  | nil => cases h
  | cons first rest =>
      rw [header] at h
      split at h
      · exact size_of_jsonHeader h
      · split at h
        · exact size_of_roseHeader h
        · cases h

/-- The frames of a TCP connection. -/
def tcpFramer : Framer Octet Frame where
  front b := (header b).front
  front_nil := rfl
  size_pos := by
    intro b f n h
    cases hb : header b <;> simp only [hb, Header.front] at h <;> cases h
    exact (size_of_frame hb).1
  size_le := by
    intro b f n h
    cases hb : header b <;> simp only [hb, Header.front] at h <;> cases h
    exact (size_of_frame hb).2
  frame_append := by
    intro b f n h t
    rw [header_append (fun hwait => by rw [hwait] at h; cases h), h]
  skip_append := by
    intro b h t
    rw [header_append (fun hwait => by rw [hwait] at h; cases h), h]

end Esnacc.Ts
