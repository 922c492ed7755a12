import Mathlib

/-!
Octets as bit strings. An octet is a `BitVec 8`; its bits are listed most
significant first, so that a sequence of octets is the concatenation of the
bits of its members, which is the order in which bit-oriented wire formats
transmit them. The file relates the shifts, masks and disjunctions that
programs compute with octets to operations on lists of bits, packs a bit
string into octets, and reads a bit string as a number.
-/

namespace BitString

/-- An eight-bit unit of data. -/
abbrev Octet := BitVec 8

/-- The bits of an octet, most significant first. -/
def bitsOf (o : Octet) : List Bool := List.ofFn fun i : Fin 8 => o.getMsbD i

/-- The bits of a sequence of octets, in transmission order. -/
def octetBits (os : List Octet) : List Bool := os.flatMap bitsOf

@[simp] theorem length_bitsOf (o : Octet) : (bitsOf o).length = 8 := by simp [bitsOf]

@[simp] theorem getElem_bitsOf (o : Octet) (i : ℕ) (h : i < (bitsOf o).length) :
    (bitsOf o)[i] = o.getMsbD i := by
  simp only [bitsOf, List.getElem_ofFn]

theorem bitsOf_injective : Function.Injective bitsOf := by
  intro a b h
  refine BitVec.eq_of_getMsbD_eq fun i hi => ?_
  have ha := getElem_bitsOf a i (by simpa using hi)
  have hb := getElem_bitsOf b i (by simpa using hi)
  rw [← ha, ← hb]
  simp [h]

@[simp] theorem octetBits_nil : octetBits [] = [] := rfl

@[simp] theorem octetBits_cons (o : Octet) (os : List Octet) :
    octetBits (o :: os) = bitsOf o ++ octetBits os := rfl

@[simp] theorem octetBits_append (os ps : List Octet) :
    octetBits (os ++ ps) = octetBits os ++ octetBits ps := by
  simp [octetBits]

@[simp] theorem length_octetBits (os : List Octet) : (octetBits os).length = 8 * os.length := by
  induction os with
  | nil => rfl
  | cons o os ih => simp [ih]; omega

theorem octetBits_injective : Function.Injective octetBits := by
  intro os
  induction os with
  | nil =>
      intro ps h
      have hlen := congrArg List.length h
      simpa using hlen.symm
  | cons o os ih =>
      intro ps h
      cases ps with
      | nil => simpa using congrArg List.length h
      | cons p ps =>
          obtain ⟨hhead, htail⟩ := List.append_inj (by simpa using h) (by simp)
          rw [bitsOf_injective hhead, ih htail]

/-- The first octets of a sequence carry the first bits of it. -/
theorem octetBits_take (os : List Octet) (n : ℕ) :
    octetBits (os.take n) = (octetBits os).take (8 * n) := by
  induction os generalizing n with
  | nil => simp
  | cons o os ih =>
      cases n with
      | zero => simp
      | succ n =>
          rw [List.take_succ_cons, octetBits_cons, octetBits_cons, ih,
            List.take_append, List.take_of_length_le (l := bitsOf o) (by simp)]
          simp [Nat.mul_add]

theorem octetBits_drop (os : List Octet) (n : ℕ) :
    octetBits (os.drop n) = (octetBits os).drop (8 * n) := by
  induction os generalizing n with
  | nil => simp
  | cons o os ih =>
      cases n with
      | zero => simp
      | succ n =>
          rw [List.drop_succ_cons, octetBits_cons, ih, List.drop_append,
            List.drop_of_length_le (l := bitsOf o) (by simp)]
          simp [Nat.mul_add]

/-! ### Shifts, masks and disjunctions -/

@[simp] theorem bitsOf_zero : bitsOf 0#8 = List.replicate 8 false := by decide

theorem bitsOf_shiftLeft (o : Octet) {k : ℕ} (hk : k ≤ 8) :
    bitsOf (o <<< k) = (bitsOf o).drop k ++ List.replicate k false := by
  refine List.ext_getElem (by simp; omega) fun i h₁ _ => ?_
  have hi : i < 8 := by simpa using h₁
  rw [getElem_bitsOf, BitVec.getMsbD_shiftLeft, List.getElem_append]
  split
  · simp [Nat.add_comm]
  · rename_i h
    simp only [length_bitsOf, List.length_drop, not_lt] at h
    simp only [List.getElem_replicate]
    exact BitVec.getMsbD_of_ge _ _ (by omega)

theorem bitsOf_ushiftRight (o : Octet) {k : ℕ} (hk : k ≤ 8) :
    bitsOf (o >>> k) = List.replicate k false ++ (bitsOf o).take (8 - k) := by
  refine List.ext_getElem (by simp; omega) fun i h₁ _ => ?_
  have hi : i < 8 := by simpa using h₁
  rw [getElem_bitsOf, BitVec.getMsbD_ushiftRight, List.getElem_append]
  split
  · rename_i h
    simp only [List.length_replicate] at h
    simp [h]
  · rename_i h
    simp only [List.length_replicate, not_lt] at h
    simp [hi, Nat.not_lt.mpr h]

theorem bitsOf_or (a b : Octet) : bitsOf (a ||| b) = (bitsOf a).zipWith (· || ·) (bitsOf b) := by
  refine List.ext_getElem (by simp) fun i _ _ => ?_
  simp

private theorem zipWith_or_replicate_right (xs : List Bool) :
    xs.zipWith (· || ·) (List.replicate xs.length false) = xs := by
  refine List.ext_getElem (by simp) fun i _ _ => ?_
  simp

private theorem zipWith_or_replicate_left (xs : List Bool) :
    (List.replicate xs.length false).zipWith (· || ·) xs = xs := by
  refine List.ext_getElem (by simp) fun i _ _ => ?_
  simp

/-- Octets that do not overlap are joined by the disjunction. -/
theorem bitsOf_or_of_disjoint {a b : Octet} {xs ys : List Bool}
    (ha : bitsOf a = xs ++ List.replicate ys.length false)
    (hb : bitsOf b = List.replicate xs.length false ++ ys) :
    bitsOf (a ||| b) = xs ++ ys := by
  rw [bitsOf_or, ha, hb, List.zipWith_append (by simp), zipWith_or_replicate_right,
    zipWith_or_replicate_left]

/-! ### Packing bits into octets -/

/-- The octet whose leading bits are `xs`, padded with zeros. -/
def ofBits (xs : List Bool) : Octet :=
  BitVec.ofNat 8 ((List.range 8).foldl (fun n i => 2 * n + (xs.getD i false).toNat) 0)

/-- A bit string cut into octets, the last one padded with zeros. -/
def pack : List Bool → List Octet
  | [] => []
  | a :: b :: c :: d :: e :: f :: g :: h :: rest => ofBits [a, b, c, d, e, f, g, h] :: pack rest
  | xs => [ofBits xs]

theorem bitsOf_ofBits_eight (a b c d e f g h : Bool) :
    bitsOf (ofBits [a, b, c, d, e, f, g, h]) = [a, b, c, d, e, f, g, h] := by
  revert a b c d e f g h
  decide

/-- A bit string of eight bits is written out as eight named bits. -/
theorem exists_eight {xs : List Bool} (h : 8 ≤ xs.length) :
    ∃ a b c d e f g h rest, xs = a :: b :: c :: d :: e :: f :: g :: h :: rest := by
  match xs, h with
  | a :: b :: c :: d :: e :: f :: g :: h :: rest, _ => exact ⟨a, b, c, d, e, f, g, h, rest, rfl⟩

theorem bitsOf_ofBits_short {xs : List Bool} (h : xs.length < 8) :
    bitsOf (ofBits xs) = xs ++ List.replicate (8 - xs.length) false := by
  match xs, h with
  | [], _ => decide
  | [a], _ => revert a; decide
  | [a, b], _ => revert a b; decide
  | [a, b, c], _ => revert a b c; decide
  | [a, b, c, d], _ => revert a b c d; decide
  | [a, b, c, d, e], _ => revert a b c d e; decide
  | [a, b, c, d, e, f], _ => revert a b c d e f; decide
  | [a, b, c, d, e, f, g], _ => revert a b c d e f g; decide

theorem bitsOf_ofBits {xs : List Bool} (h : xs.length ≤ 8) :
    bitsOf (ofBits xs) = xs ++ List.replicate (8 - xs.length) false := by
  rcases Nat.lt_or_eq_of_le h with hlt | heq
  · exact bitsOf_ofBits_short hlt
  · obtain ⟨a, b, c, d, e, f, g, z, rest, rfl⟩ := exists_eight heq.ge
    obtain rfl : rest = [] := by simpa using heq
    simpa using bitsOf_ofBits_eight a b c d e f g z

@[simp] theorem ofBits_bitsOf (o : Octet) : ofBits (bitsOf o) = o :=
  bitsOf_injective (by rw [bitsOf_ofBits (by simp)]; simp)

@[simp] theorem pack_nil : pack [] = [] := rfl

theorem pack_short {xs : List Bool} (h₀ : xs ≠ []) (h : xs.length < 8) : pack xs = [ofBits xs] := by
  match xs, h₀, h with
  | [_], _, _ => rfl
  | [_, _], _, _ => rfl
  | [_, _, _], _, _ => rfl
  | [_, _, _, _], _, _ => rfl
  | [_, _, _, _, _], _, _ => rfl
  | [_, _, _, _, _, _], _, _ => rfl
  | [_, _, _, _, _, _, _], _, _ => rfl

theorem pack_append {xs : List Bool} (ys : List Bool) (h : xs.length = 8) :
    pack (xs ++ ys) = ofBits xs :: pack ys := by
  obtain ⟨a, b, c, d, e, f, g, h', rest, rfl⟩ := exists_eight h.ge
  obtain rfl : rest = [] := by simpa using h
  rfl

@[simp] theorem pack_bitsOf_append (o : Octet) (ys : List Bool) :
    pack (bitsOf o ++ ys) = o :: pack ys := by
  rw [pack_append ys (length_bitsOf o), ofBits_bitsOf]

/-- Packing whole octets gives them back. -/
theorem pack_octetBits_append (os : List Octet) (ys : List Bool) :
    pack (octetBits os ++ ys) = os ++ pack ys := by
  induction os with
  | nil => rfl
  | cons o os ih => rw [octetBits_cons, List.append_assoc, pack_bitsOf_append, ih, List.cons_append]

@[simp] theorem pack_octetBits (os : List Octet) : pack (octetBits os) = os := by
  simpa using pack_octetBits_append os []

/-- Every bit string is whole octets followed by fewer than eight bits. -/
theorem exists_octets_append (xs : List Bool) :
    ∃ os ys, xs = octetBits os ++ ys ∧ ys.length < 8 ∧ os.length = xs.length / 8 := by
  induction hn : xs.length / 8 generalizing xs with
  | zero => exact ⟨[], xs, rfl, by omega, rfl⟩
  | succ n ih =>
      obtain ⟨os, ys, hxs, hys, hos⟩ := ih (xs.drop 8) (by simp; omega)
      refine ⟨ofBits (xs.take 8) :: os, ys, ?_, hys, by simp [hos]⟩
      rw [octetBits_cons, bitsOf_ofBits (by simp), List.append_assoc, ← hxs]
      have htake : (xs.take 8).length = 8 := by simp; omega
      simp [htake]

/-- The bits of a packed bit string are the bit string and its padding. -/
theorem octetBits_pack (xs : List Bool) :
    octetBits (pack xs) = xs ++ List.replicate (8 * ((xs.length + 7) / 8) - xs.length) false := by
  obtain ⟨os, ys, rfl, hys, -⟩ := exists_octets_append xs
  rw [pack_octetBits_append, octetBits_append]
  rcases eq_or_ne ys [] with rfl | hne
  · have hdiv : 8 * ((8 * os.length + 7) / 8) - 8 * os.length = 0 := by omega
    simp [hdiv]
  · have hpos : 0 < ys.length := List.length_pos_iff.mpr hne
    rw [pack_short hne hys, octetBits_cons, bitsOf_ofBits hys.le]
    have hpad : 8 - ys.length = 8 * ((8 * os.length + ys.length + 7) / 8) -
        (8 * os.length + ys.length) := by omega
    simp [hpad]

@[simp] theorem length_pack (xs : List Bool) : (pack xs).length = (xs.length + 7) / 8 := by
  have h := congrArg List.length (octetBits_pack xs)
  simp only [length_octetBits, List.length_append, List.length_replicate] at h
  omega

/-! ### Bit strings as numbers -/

/-- The number a bit string denotes, most significant bit first. -/
def natOfBits (xs : List Bool) : ℕ := xs.foldl (fun n b => 2 * n + b.toNat) 0

/-- The number a sequence of octets denotes, most significant octet first. -/
def natOfOctets (os : List Octet) : ℕ := os.foldl (fun n o => 256 * n + o.toNat) 0

private theorem foldl_bits (xs : List Bool) (n : ℕ) :
    xs.foldl (fun n b => 2 * n + b.toNat) n = n * 2 ^ xs.length + natOfBits xs := by
  induction xs generalizing n with
  | nil => simp [natOfBits]
  | cons x xs ih =>
      rw [natOfBits, List.foldl_cons, List.foldl_cons, ih, ih (2 * 0 + x.toNat)]
      simp only [List.length_cons, pow_succ]
      ring

private theorem foldl_octets (os : List Octet) (n : ℕ) :
    os.foldl (fun n o => 256 * n + o.toNat) n = n * 256 ^ os.length + natOfOctets os := by
  induction os generalizing n with
  | nil => simp [natOfOctets]
  | cons o os ih =>
      rw [natOfOctets, List.foldl_cons, List.foldl_cons, ih, ih (256 * 0 + o.toNat)]
      simp only [List.length_cons, pow_succ]
      ring

@[simp] theorem natOfBits_nil : natOfBits [] = 0 := rfl

@[simp] theorem natOfOctets_nil : natOfOctets [] = 0 := rfl

theorem natOfBits_append (xs ys : List Bool) :
    natOfBits (xs ++ ys) = natOfBits xs * 2 ^ ys.length + natOfBits ys := by
  rw [natOfBits, List.foldl_append, foldl_bits]; rfl

theorem natOfOctets_append (os ps : List Octet) :
    natOfOctets (os ++ ps) = natOfOctets os * 256 ^ ps.length + natOfOctets ps := by
  rw [natOfOctets, List.foldl_append, foldl_octets]; rfl

theorem natOfBits_cons (x : Bool) (xs : List Bool) :
    natOfBits (x :: xs) = x.toNat * 2 ^ xs.length + natOfBits xs := by
  simpa [natOfBits] using natOfBits_append [x] xs

theorem natOfOctets_cons (o : Octet) (os : List Octet) :
    natOfOctets (o :: os) = o.toNat * 256 ^ os.length + natOfOctets os := by
  simpa [natOfOctets] using natOfOctets_append [o] os

@[simp] theorem natOfOctets_singleton (o : Octet) : natOfOctets [o] = o.toNat := by
  simp [natOfOctets]

theorem natOfBits_lt (xs : List Bool) : natOfBits xs < 2 ^ xs.length := by
  induction xs with
  | nil => simp
  | cons x xs ih =>
      rw [natOfBits_cons, List.length_cons, pow_succ]
      have hx : x.toNat ≤ 1 := Bool.toNat_le x
      nlinarith

theorem natOfOctets_lt (os : List Octet) : natOfOctets os < 256 ^ os.length := by
  induction os with
  | nil => simp
  | cons o os ih =>
      rw [natOfOctets_cons, List.length_cons, pow_succ]
      have ho : o.toNat < 256 := o.isLt
      nlinarith

@[simp] theorem natOfBits_replicate_false (k : ℕ) : natOfBits (List.replicate k false) = 0 := by
  induction k with
  | zero => rfl
  | succ k ih => simp [List.replicate_succ, natOfBits_cons, ih]

@[simp] theorem natOfBits_bitsOf (o : Octet) : natOfBits (bitsOf o) = o.toNat := by
  revert o
  decide

/-- Reading octets as a number and reading their bits as a number agree. -/
theorem natOfBits_octetBits (os : List Octet) : natOfBits (octetBits os) = natOfOctets os := by
  induction os with
  | nil => rfl
  | cons o os ih =>
      rw [octetBits_cons, natOfBits_append, natOfOctets_cons, ih, natOfBits_bitsOf,
        length_octetBits, pow_mul]
      norm_num

/-! ### Overwriting -/

/-- Overwrites the octets of `dst` from `offset` on, as far as it reaches. -/
def overwrite : List Octet → ℕ → List Octet → List Octet
  | [], _, _ => []
  | d :: dst, 0, [] => d :: dst
  | _ :: dst, 0, s :: src => s :: overwrite dst 0 src
  | d :: dst, offset + 1, src => d :: overwrite dst offset src

@[simp] theorem length_overwrite (dst : List Octet) (offset : ℕ) (src : List Octet) :
    (overwrite dst offset src).length = dst.length := by
  induction dst generalizing offset src with
  | nil => rfl
  | cons d dst ih =>
      cases offset with
      | zero =>
          cases src with
          | nil => rfl
          | cons s src => simp [overwrite, ih]
      | succ offset => simp [overwrite, ih]

@[simp] theorem overwrite_zero_nil (dst : List Octet) : overwrite dst 0 [] = dst := by
  cases dst <;> rfl

/-- What is overwritten in the middle. -/
theorem overwrite_append (front mid src back : List Octet) (h : mid.length = src.length) :
    overwrite (front ++ (mid ++ back)) front.length src = front ++ (src ++ back) := by
  induction front with
  | nil =>
      induction mid generalizing src with
      | nil =>
          obtain rfl : src = [] := List.length_eq_zero_iff.mp h.symm
          simp
      | cons m mid ih =>
          cases src with
          | nil => cases h
          | cons s src => simpa [overwrite] using ih src (by simpa using h)
  | cons f front ih => simpa [overwrite] using ih

end BitString
