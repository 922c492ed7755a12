import Esnacc.Lib.Utf8
import Esnacc.Ts.DecodeEncoding
import Esnacc.Ts.FramingLoop
import Mathlib.Data.Nat.Digits.Lemmas

/-!
What `TSASN1NodeClient.send` writes to a TCP connection, and what the framing of the other side
makes of it. A text has a header with its length when the client is set to JSON; the length is the
one that a string has in JavaScript.
-/

namespace Esnacc.Ts

open BitString

/-- What `encodeToTransport` gives: the text of `JSON.stringify`, or the octets of `toBER()`. -/
inductive Payload
  | text (text : List Char)
  | octets (octets : List Octet)
  deriving DecidableEq

/-- `data.length`: UTF-16 units of a string, octets of an array. -/
def Payload.length : Payload → ℕ
  | text t => Utf8.units t
  | octets os => os.length

/-- What the socket writes for it. -/
def Payload.written : Payload → List Octet
  | text t => Utf8.encode t
  | octets os => os

/-- `String(len)`. -/
def stringOf (len : ℕ) : List Octet :=
  if len = 0 then [0x30] else (Nat.digits 10 len).reverse.map fun d => BitVec.ofNat 8 (0x30 + d)

/-- `padStart(7, "0")`. -/
def padStart (s : List Octet) : List Octet := List.replicate (7 - s.length) 0x30 ++ s

structure MessageTooBig where
  length : ℕ
  deriving DecidableEq, Repr

/-- `send`, over TCP: what is written, unless the message is too big. -/
def send (encoding : Option EASN1TransportEncoding) (data : Payload) :
    Except MessageTooBig (List Octet) :=
  if encoding = some .JSON then
    if 9999999 < data.length then .error ⟨data.length⟩
    else .ok (frameStartJson :: padStart (stringOf data.length) ++ data.written)
  else .ok data.written

/-- The other side, which waits for a frame, cuts exactly one out of it. -/
def IsOneFrame (written : List Octet) (payload : Frame) : Prop :=
  Calls [] written (.ok [payload], [])

/-- The definite forms of a length, of at most four octets and below 2^31. -/
inductive DefiniteLength (n : ℕ) : List Octet → Prop
  | short (h : n < 128) : DefiniteLength n [BitVec.ofNat 8 n]
  | long (digits : List Octet) (hdigits : natOfOctets digits = n) (hne : digits ≠ [])
      (hfour : digits.length ≤ 4) (h : n < 2 ^ 31) :
      DefiniteLength n (BitVec.ofNat 8 (128 + digits.length) :: digits)

/-- A ROSE message is encoded with the tag of its alternative. -/
def Payload.IsMessage : Payload → Prop
  | text _ => True
  | octets os => ∃ tag length contents, os = tag :: length ++ contents ∧ isRoseTag tag = true ∧
      DefiniteLength contents.length length

/-! ### The header -/

theorem decimal_replicate (k : ℕ) (cs : List ℕ) :
    decimal (List.replicate k 48 ++ cs) = decimal cs := by
  induction k with
  | zero => rfl
  | succ k ih =>
      rw [List.replicate_succ, List.cons_append, decimal, List.foldl_cons]
      exact ih

theorem foldl_digits (ds : List ℕ) (h : ∀ d ∈ ds, d < 10) :
    decimal (ds.reverse.map fun d => 48 + d) = Nat.ofDigits 10 ds := by
  rw [decimal, List.map_reverse, List.foldl_reverse]
  induction ds with
  | nil => rfl
  | cons d ds ih =>
      rw [List.map_cons, List.foldr_cons, ih fun d' hd' => h d' (List.mem_cons_of_mem _ hd'),
        Nat.ofDigits_cons]
      omega

theorem toNat_digit {d : ℕ} (h : d < 10) : (BitVec.ofNat 8 (0x30 + d)).toNat = 48 + d := by
  rw [BitVec.toNat_ofNat, Nat.mod_eq_of_lt (by omega)]

theorem stringOf_spec (len : ℕ) : (stringOf len).all isDigitOctet = true ∧
    decimal ((stringOf len).map BitVec.toNat) = len := by
  rw [stringOf]
  split_ifs with hzero
  · rw [hzero]
    decide
  · have hdigit : ∀ d ∈ Nat.digits 10 len, d < 10 := fun d hd =>
      Nat.digits_lt_base (by decide) hd
    constructor
    · rw [List.all_eq_true]
      intro o ho
      obtain ⟨d, hd, rfl⟩ := List.mem_map.mp ho
      have hlt := hdigit d (List.mem_reverse.mp hd)
      rw [isDigitOctet, toNat_digit hlt, isDigit]
      simp
      omega
    · have hmap : ((Nat.digits 10 len).reverse.map fun d => BitVec.ofNat 8 (0x30 + d)).map
          BitVec.toNat = (Nat.digits 10 len).reverse.map fun d => 48 + d := by
        rw [List.map_map]
        refine List.map_congr_left fun d hd => ?_
        exact toNat_digit (hdigit d (List.mem_reverse.mp hd))
      rw [hmap, foldl_digits _ hdigit, Nat.ofDigits_digits]

theorem length_stringOf {len : ℕ} (h : len ≤ 9999999) : (stringOf len).length ≤ 7 := by
  rw [stringOf]
  split_ifs
  · exact Nat.le_of_ble_eq_true rfl
  · rw [List.length_map, List.length_reverse, Nat.digits_length_le_iff (by decide)]
    omega

theorem padStart_spec {len : ℕ} (h : len ≤ 9999999) :
    (padStart (stringOf len)).length = 7 ∧ (padStart (stringOf len)).all isDigitOctet = true ∧
      decimal ((padStart (stringOf len)).map BitVec.toNat) = len := by
  obtain ⟨hall, hdecimal⟩ := stringOf_spec len
  have hlen := length_stringOf h
  refine ⟨?_, ?_, ?_⟩
  · rw [padStart, List.length_append, List.length_replicate]
    omega
  · rw [padStart, List.all_append, hall, Bool.and_true, List.all_eq_true]
    intro o ho
    rw [List.eq_of_mem_replicate ho]
    decide
  · have hzero : (0x30 : Octet).toNat = 48 := rfl
    rw [padStart, List.map_append, List.map_replicate, hzero, decimal_replicate, hdecimal]

/-- The header asks for as many octets as it says, if there are as many. -/
theorem header_written {len : ℕ} (h : len ≤ 9999999) {octets : List Octet}
    (hlen : len ≤ octets.length) :
    header (frameStartJson :: padStart (stringOf len) ++ octets) =
      .frame (octets.take len) (8 + len) := by
  obtain ⟨hseven, hall, hdecimal⟩ := padStart_spec h
  generalize padStart (stringOf len) = digits at hseven hall hdecimal
  have hdigits : ((frameStartJson :: digits ++ octets).drop 1).take 7 = digits := by
    rw [List.cons_append, List.drop_succ_cons, List.drop_zero, ← hseven, List.take_left]
  have hdrop : (frameStartJson :: digits ++ octets).drop 8 = octets := by
    rw [List.cons_append, List.drop_succ_cons, ← hseven, List.drop_left]
  have hlength : (frameStartJson :: digits ++ octets).length = 8 + octets.length := by
    rw [List.cons_append, List.length_cons, List.length_append, hseven]
    omega
  have hheader : header (frameStartJson :: digits ++ octets) =
      jsonHeader (frameStartJson :: digits ++ octets) := by
    rw [List.cons_append, header, if_pos rfl]
  rw [hheader, jsonHeader]
  dsimp only
  rw [hdigits, hdrop, hlength, if_neg (by omega), if_pos hall, hdecimal, if_neg (by omega)]

/-! ### The octets of all frames -/

theorem length_subarray (b : List Octet) (total : ℤ) :
    (subarray b 0 total).length + (subarrayFrom b total).length = b.length := by
  have hzero : relativeIndex b.length 0 = 0 := by
    rw [relativeIndex, if_neg (by omega)]
    omega
  rw [subarray, subarrayFrom, hzero, List.drop_zero, List.length_take, List.length_drop]
  omega

theorem length_tryConsumeBerFrame {b rest : List Octet} {f : Frame}
    (h : tryConsumeBerFrame b = .ok (some f, rest)) : f.length + rest.length = b.length := by
  rw [tryConsumeBerFrame] at h
  split_ifs at h
  · cases (Prod.mk.inj (Except.ok.inj h)).1
  · dsimp only at h
    cases hparse : parseBerLength b 1 with
    | error e =>
        rw [hparse] at h
        cases h
    | ok r =>
        cases r with
        | none =>
            rw [hparse] at h
            cases (Prod.mk.inj (Except.ok.inj h)).1
        | some r =>
            rw [hparse] at h
            dsimp only at h
            split_ifs at h
            · cases (Prod.mk.inj (Except.ok.inj h)).1
            · obtain ⟨hf, hrest⟩ := Prod.mk.inj (Except.ok.inj h)
              rw [← Option.some.inj hf, ← hrest]
              exact length_subarray b _

theorem length_tryConsumeJsonFrame {b rest : List Octet} {f : Frame}
    (h : tryConsumeJsonFrame b = (some f, rest)) : f.length + rest.length + 8 ≤ b.length := by
  have hcut {n : ℕ} (hle : 8 + n ≤ b.length) :
      ((b.drop 8).take n).length + (b.drop (8 + n)).length + 8 ≤ b.length := by
    rw [List.length_take, List.length_drop, List.length_drop]
    omega
  rw [tryConsumeJsonFrame_eq] at h
  cases hheader : jsonHeader b with
  | frame f' n =>
      rw [hheader] at h
      obtain ⟨hf, hrest⟩ := Prod.mk.inj h
      rw [jsonHeader] at hheader
      dsimp only at hheader
      split_ifs at hheader with hshort hall hwait
      · rw [Header.frame.injEq] at hheader
        rw [← Option.some.inj hf, ← hrest, ← hheader.1, ← hheader.2]
        exact hcut (by omega)
      · split at hheader
        · cases hheader
        · split at hheader <;> cases hheader
  | laxDigits n =>
      rw [hheader] at h
      dsimp only at h
      split_ifs at h with hwait
      · cases (Prod.mk.inj h).1
      · obtain ⟨hf, hrest⟩ := Prod.mk.inj h
        rw [← Option.some.inj hf, ← hrest]
        exact hcut (by omega)
  | wait | junk | badDigits | badForm | overlong =>
      rw [hheader] at h
      cases (Prod.mk.inj h).1

/-- What a call returns beside the frames it was given has no more octets than the buffer; and
fewer, unless a ROSE message stands at its front. -/
theorem framingLoop_length {fuel : ℕ} {b rest : List Octet} {acc frames : List Frame}
    (h : framingLoop fuel b acc = some (.ok frames, rest)) :
    ∃ new, frames = acc ++ new ∧ (new.map List.length).sum ≤ b.length ∧
      (∀ first ∈ b.head?, isRoseTag first = false → (new.map List.length).sum < b.length) := by
  induction fuel generalizing b acc with
  | zero => cases h
  | succ fuel ih =>
      cases b with
      | nil =>
          rw [framingLoop] at h
          obtain ⟨hframes, -⟩ := Prod.mk.inj (Option.some.inj h)
          exact ⟨[], by rw [List.append_nil, Except.ok.inj hframes], le_rfl,
            fun _ h => (by cases h)⟩
      | cons first tail =>
          have hnone (hacc : frames = acc) : ∃ new, frames = acc ++ new ∧
              (new.map List.length).sum ≤ (first :: tail).length ∧
              (∀ first' ∈ (first :: tail).head?, isRoseTag first' = false →
                (new.map List.length).sum < (first :: tail).length) :=
            ⟨[], by rw [List.append_nil, hacc], Nat.zero_le _, fun _ _ _ => Nat.succ_pos _⟩
          have hsome {f : Frame} {b' : List Octet}
              (h : framingLoop fuel b' (acc ++ [f]) = some (.ok frames, rest))
              (hle : f.length + b'.length ≤ (first :: tail).length)
              (hlt : isRoseTag first = false → f.length + b'.length < (first :: tail).length) :
              ∃ new, frames = acc ++ new ∧
                (new.map List.length).sum ≤ (first :: tail).length ∧
                (∀ first' ∈ (first :: tail).head?, isRoseTag first' = false →
                  (new.map List.length).sum < (first :: tail).length) := by
            obtain ⟨new, hnew, hsum, -⟩ := ih h
            refine ⟨f :: new, by rw [hnew, List.append_assoc, List.singleton_append], ?_, ?_⟩
            · rw [List.map_cons, List.sum_cons]
              omega
            · intro first' hfirst hrose
              rw [List.head?_cons, Option.mem_some_iff] at hfirst
              have := hlt (hfirst ▸ hrose)
              rw [List.map_cons, List.sum_cons]
              omega
          rw [framingLoop] at h
          split_ifs at h with hjson hrose
          · cases hconsume : tryConsumeJsonFrame (first :: tail) with
            | mk frame rest' =>
                rw [hconsume] at h
                cases frame with
                | none => exact hnone (Except.ok.inj (Prod.mk.inj (Option.some.inj h)).1).symm
                | some f =>
                    have hlength := length_tryConsumeJsonFrame hconsume
                    exact hsome h (by omega) fun _ => by omega
          · cases hconsume : tryConsumeBerFrame (first :: tail) with
            | error e =>
                rw [hconsume] at h
                cases (Prod.mk.inj (Option.some.inj h)).1
            | ok r =>
                rw [hconsume] at h
                obtain ⟨frame, rest'⟩ := r
                cases frame with
                | none => exact hnone (Except.ok.inj (Prod.mk.inj (Option.some.inj h)).1).symm
                | some f =>
                    have hlength := length_tryConsumeBerFrame hconsume
                    exact hsome h hlength.le fun hfalse => by
                      rw [hrose] at hfalse
                      cases hfalse
          · rw [subarrayFrom_one] at h
            obtain ⟨new, hnew, hsum, -⟩ := ih h
            rw [List.tail_cons] at hsum
            exact ⟨new, hnew, hsum.trans (Nat.le_succ _), fun _ _ _ => Nat.lt_succ_of_le hsum⟩

/-- Octets that do not begin with the tag of a ROSE message are no frame of their own. -/
theorem not_isOneFrame_self {octets : List Octet}
    (h : ∀ first ∈ octets.head?, isRoseTag first = false) : ¬IsOneFrame octets octets := by
  rintro ⟨fuel, hcall⟩
  rw [handleFraming, List.nil_append] at hcall
  obtain ⟨new, hnew, hsum, hlt⟩ := framingLoop_length hcall
  rw [List.nil_append] at hnew
  rw [← hnew, List.map_singleton, List.sum_singleton] at hlt
  cases octets with
  | nil =>
      cases fuel with
      | zero => cases hcall
      | succ fuel =>
          rw [framingLoop] at hcall
          cases (Prod.mk.inj (Option.some.inj hcall)).1
  | cons first rest => exact (hlt first rfl (h first rfl)).ne rfl

/-! ### The two kinds of payload -/

theorem isRoseTag_of_toNat {o : Octet} (h : o.toNat < 0x80 ∨ 0xC0 ≤ o.toNat) :
    isRoseTag o = false := by
  have hne {n : ℕ} (hn : n < 256) (hlo : 0x80 ≤ n) (hhi : n < 0xC0) : o ≠ BitVec.ofNat 8 n := by
    intro heq
    rw [heq, BitVec.toNat_ofNat, Nat.mod_eq_of_lt hn] at h
    omega
  simp [isRoseTag, hne (show 0xA1 < 256 by decide), hne (show 0xA2 < 256 by decide),
    hne (show 0xA3 < 256 by decide), hne (show 0xA4 < 256 by decide)]

/-- A text without a header is no frame. -/
theorem not_isOneFrame_text (t : List Char) : ¬IsOneFrame (Utf8.encode t) (Utf8.encode t) := by
  refine not_isOneFrame_self fun first hfirst => ?_
  cases t with
  | nil => cases hfirst
  | cons c t =>
      obtain ⟨o, rest, hchar, ho⟩ := Utf8.toNat_head_encodeChar c
      rw [Utf8.encode_cons, hchar, List.cons_append, List.head?_cons, Option.mem_some_iff]
        at hfirst
      rw [← hfirst]
      exact isRoseTag_of_toNat ho

/-- With its header a payload is a frame if and only if the header counts its octets. -/
theorem isOneFrame_header_iff {len : ℕ} (h : len ≤ 9999999) {octets : List Octet}
    (hlen : len ≤ octets.length) :
    IsOneFrame (frameStartJson :: padStart (stringOf len) ++ octets) octets ↔
      len = octets.length := by
  have hheader := header_written h hlen
  have hover : header (frameStartJson :: padStart (stringOf len) ++ octets) ≠ .overlong := by
    rw [hheader]
    exact fun h => by cases h
  have hdrop : (frameStartJson :: padStart (stringOf len) ++ octets).drop (8 + len) =
      octets.drop len := by
    have hseven := (padStart_spec h).1
    rw [List.cons_append, Nat.add_comm 8, ← Nat.add_assoc len 7 1, List.drop_succ_cons,
      Nat.add_comm len, ← List.drop_drop, ← hseven, List.drop_left]
  constructor
  · rintro ⟨fuel, hcall⟩
    rw [handleFraming, List.nil_append] at hcall
    cases fuel with
    | zero => cases hcall
    | succ fuel =>
        rw [framingLoop_succ fuel hover, hheader] at hcall
        dsimp only at hcall
        obtain ⟨new, hnew, -⟩ := framingLoop_length hcall
        have htake := (List.cons.inj hnew).1
        have hlength := congrArg List.length htake
        rw [List.length_take] at hlength
        omega
  · intro heq
    refine ⟨2, ?_⟩
    rw [handleFraming, List.nil_append, framingLoop_succ 1 hover, hheader]
    dsimp only
    rw [hdrop, heq, List.drop_length, List.take_length]
    rfl

theorem header_message {tag : Octet} {length contents : List Octet} (htag : isRoseTag tag = true)
    (h : DefiniteLength contents.length length) :
    header (tag :: length ++ contents) =
      .frame (tag :: length ++ contents) (tag :: length ++ contents).length := by
  have hjson : tag ≠ frameStartJson := by
    rintro rfl
    exact absurd htag (by decide)
  have hheader : header (tag :: length ++ contents) = roseHeader (tag :: length ++ contents) := by
    rw [List.cons_append, header, if_neg hjson, if_pos htag]
  rw [hheader]
  cases h with
  | short hshort =>
      have hnat : (BitVec.ofNat 8 contents.length).toNat = contents.length := by
        rw [BitVec.toNat_ofNat, Nat.mod_eq_of_lt (by omega)]
      have hlen : (tag :: [BitVec.ofNat 8 contents.length] ++ contents).length =
          2 + contents.length := by
        simp only [List.cons_append, List.nil_append, List.length_cons]
        omega
      rw [roseHeader]
      simp only [List.cons_append, List.nil_append, List.drop_succ_cons, List.drop_zero] at hlen ⊢
      rw [hnat, if_pos hshort, hlen, if_neg (by omega), ← hlen, List.take_length]
  | long digits hdigits hne hfour hlt =>
      have hpos : 0 < digits.length := List.length_pos_iff.mpr hne
      have hnat : (BitVec.ofNat 8 (128 + digits.length)).toNat = 128 + digits.length := by
        rw [BitVec.toNat_ofNat, Nat.mod_eq_of_lt (by omega)]
      have hk : 128 + digits.length - 128 = digits.length := by omega
      have hlen : (tag :: (BitVec.ofNat 8 (128 + digits.length) :: digits) ++ contents).length =
          2 + digits.length + contents.length := by
        simp only [List.cons_append, List.length_cons, List.length_append]
        omega
      rw [roseHeader]
      simp only [List.cons_append, List.drop_succ_cons, List.drop_zero] at hlen ⊢
      rw [hnat, if_neg (by omega), hk, if_neg (by omega), List.take_left, hdigits,
        if_neg (by rw [List.length_append]; omega), if_neg (by omega), hlen, if_neg (by omega),
        ← hlen, List.take_length]

/-- A ROSE message is a frame as it is. -/
theorem isOneFrame_message {os : List Octet} (h : (Payload.octets os).IsMessage) :
    IsOneFrame os os := by
  obtain ⟨tag, length, contents, rfl, htag, hlength⟩ := h
  have hheader := header_message htag hlength
  have hover : header (tag :: length ++ contents) ≠ .overlong := by
    rw [hheader]
    exact fun h => by cases h
  refine ⟨2, ?_⟩
  rw [handleFraming, List.nil_append, framingLoop_succ 1 hover, hheader]
  dsimp only
  rw [List.drop_length]
  rfl

/-! ### When one frame is written -/

/-- With a header: octets, or a text of ASCII characters, or nothing because it is too big.
Without one: octets. -/
def SentWhole (encoding : Option EASN1TransportEncoding) : Payload → Prop
  | .text t => encoding = some .JSON ∧ (9999999 < Utf8.units t ∨ Utf8.IsAscii t)
  | .octets _ => True

/-- What is written is one frame with the whole payload if and only if a text has a header, and in
the header the number of its octets. -/
theorem oneFrame_iff (encoding : Option EASN1TransportEncoding) {data : Payload}
    (h : data.IsMessage) :
    (∀ written, send encoding data = .ok written → IsOneFrame written data.written) ↔
      SentWhole encoding data := by
  by_cases hjson : encoding = some .JSON
  · by_cases hbig : 9999999 < data.length
    · have hsend : send encoding data = .error ⟨data.length⟩ := by
        rw [send, if_pos hjson, if_pos hbig]
      refine iff_of_true (fun written hw => ?_) ?_
      · rw [hsend] at hw
        cases hw
      · cases data with
        | text t => exact ⟨hjson, .inl hbig⟩
        | octets os => trivial
    · have hsend : send encoding data =
          .ok (frameStartJson :: padStart (stringOf data.length) ++ data.written) := by
        rw [send, if_pos hjson, if_neg hbig]
      have hlen : data.length ≤ data.written.length := by
        cases data with
        | text t => exact (Utf8.units_le t).1
        | octets os => exact le_rfl
      have hframe : (∀ written, send encoding data = .ok written →
          IsOneFrame written data.written) ↔ data.length = data.written.length := by
        rw [← isOneFrame_header_iff (not_lt.mp hbig) hlen, hsend]
        exact ⟨fun hall => hall _ rfl, fun hone written hw => Except.ok.inj hw ▸ hone⟩
      rw [hframe]
      cases data with
      | text t =>
          have hunits := (Utf8.units_le t).2
          exact ⟨fun heq => ⟨hjson, .inr (hunits.mp heq)⟩, fun hwhole =>
            hunits.mpr (hwhole.2.resolve_left hbig)⟩
      | octets os => exact iff_of_true rfl trivial
  · have hsend : send encoding data = .ok data.written := by
      rw [send, if_neg hjson]
    have hframe : (∀ written, send encoding data = .ok written →
        IsOneFrame written data.written) ↔ IsOneFrame data.written data.written := by
      rw [hsend]
      exact ⟨fun hall => hall _ rfl, fun hone written hw => Except.ok.inj hw ▸ hone⟩
    rw [hframe]
    cases data with
    | text t => exact iff_of_false (not_isOneFrame_text t) fun hwhole => hjson hwhole.1
    | octets os => exact iff_of_true (isOneFrame_message h) trivial

/-- A text of ASCII characters with JSON, and a result without contents with BER. -/
theorem oneFrame_ascii :
    (∀ written, send (some .JSON) (.text ['1', '2']) = .ok written →
      IsOneFrame written [0x31, 0x32]) ∧
    ∀ written, send (some .BER) (.octets [0xA2, 0x00]) = .ok written →
      IsOneFrame written [0xA2, 0x00] := by
  have htext : (Payload.text ['1', '2']).IsMessage := trivial
  have hresult : (Payload.octets [0xA2, 0x00]).IsMessage :=
    ⟨0xA2, [0x00], [], rfl, rfl, .short (by decide)⟩
  have hascii : Utf8.IsAscii ['1', '2'] := by
    intro c hc
    rcases List.mem_pair.mp hc with rfl | rfl <;> decide
  exact ⟨(oneFrame_iff (some .JSON) htext).mpr ⟨rfl, .inr hascii⟩,
    (oneFrame_iff (some .BER) hresult).mpr trivial⟩

/-- One character of two octets: the header says one, and the second octet is left over. -/
theorem not_oneFrame : ¬ ∀ (encoding : Option EASN1TransportEncoding) (data : Payload),
    data.IsMessage → ∀ written, send encoding data = .ok written →
      IsOneFrame written data.written := by
  intro h
  have hone := h (some .JSON) (.text ['ä']) trivial _ rfl
  have hlen : Payload.length (.text ['ä']) = 1 := rfl
  have hwritten : Payload.written (.text ['ä']) = [0xC3, 0xA4] := by decide
  rw [hlen, hwritten, isOneFrame_header_iff (by decide) (by decide)] at hone
  exact absurd hone (by decide)

end Esnacc.Ts
