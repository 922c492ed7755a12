import Esnacc.Json.RoundTrip
import Esnacc.Rose.JsonHeader
import Esnacc.Ts.FramingChunks
import Esnacc.Ts.SendFrames

/-!
Messages in JSON between the peers. A stub writes a value, and its length in front of the text if it
is set to. Another stub scans for this header and reads what is behind it; a client in TypeScript
cuts the texts out of what comes over TCP.
-/

namespace Esnacc.JsonFraming

open BitString SJson

/-- `m_eTransportEncoding`, when it is JSON. -/
inductive JsonEncoding
  | JSON
  | JSON_NO_HEADING

variable {ρ : Type} (D : Doubles ρ)

/-- What is sent for a value, unless its text is too long for a prefix. -/
def encodeMessage (encoding : JsonEncoding) (value : Node ρ) : Option (List Octet) :=
  match encoding with
  | .JSON => (getJsonLengthPrefix (write D value)).map (· ++ write D value)
  | .JSON_NO_HEADING => some (write D value)

/-- What the reader makes of a message behind the header that is found in it. -/
def decodeMessage [DecidableEq ρ] (beyond : ℕ → Octet) (lpBytes : List Octet) :
    Except Stop (Option (Node ρ) × List (List Octet)) :=
  parse D (lpBytes.drop (getJsonHeaderLen (memory lpBytes beyond) lpBytes.length).1)

variable {D}

theorem encodeMessage_JSON {value : Node ρ} {message : List Octet}
    (h : encodeMessage D .JSON value = some message) : (write D value).length ≤ 9999999 ∧
      message = letterJ :: sevenDigits (write D value).length ++ write D value := by
  rw [encodeMessage, getJsonLengthPrefix] at h
  split_ifs at h with hlong
  · cases h
  · exact ⟨Nat.not_lt.mp hlong, (Option.some.inj h).symm⟩

/-! ### To a stub -/

/-- What is written for an object begins with its bracket. -/
theorem write_objectValue (members : List (List Octet × Node ρ)) : ∃ more,
    write D (.objectValue members) = 0x7B :: more ∧ 2 ≤ more.length := by
  refine ⟨writeMembers D true members ++ [0x7D] ++ [0x0A], ?_, ?_⟩
  · rw [write, writeValue, List.cons_append]
  · simp only [List.length_append, List.length_singleton]
    omega

/-- The header that is found is the one that has been written, none without a heading, and the scan
for it stays in the message. -/
theorem header_message (encoding : JsonEncoding) {members : List (List Octet × Node ρ)}
    {message : List Octet} (h : encodeMessage D encoding (.objectValue members) = some message)
    (beyond : ℕ → Octet) : StaysInside beyond message ∧
      message.drop (getJsonHeaderLen (memory message beyond) message.length).1 =
        write D (.objectValue members) := by
  obtain ⟨more, htext, hmore⟩ := @write_objectValue ρ D members
  cases encoding with
  | JSON =>
      obtain ⟨hlong, rfl⟩ := encodeMessage_JSON h
      have hread := (readsBack_framed_iff beyond (write D (.objectValue members))).mpr fun _ => by
        rw [EndsPrefix, htext]
        rfl
      refine ⟨(staysInside_iff beyond _).mpr ⟨List.cons_ne_nil _ _, fun _ hshort => ?_⟩,
        (hread _ (if_neg (Nat.not_lt.mpr hlong))).2⟩
      -- the prefix and the brackets are longer than the scan
      rw [List.length_append, length_framed hlong, htext, List.length_cons] at hshort
      omega
  | JSON_NO_HEADING =>
      obtain rfl := Option.some.inj h
      rw [staysInside_iff, Delimited, htext,
        getJsonHeaderLen_of_ne (show memory (0x7B :: more) beyond 0 ≠ letterJ by
          show (0x7B : Octet) ≠ letterJ
          decide)]
      exact ⟨⟨List.cons_ne_nil _ _, fun hhead => absurd (Option.some.inj hhead) (by decide)⟩, rfl⟩

theorem decimal_sevenDigits (n : ℕ) : Ts.decimal ((sevenDigits n).map BitVec.toNat) = n := by
  have hdigit {c : Char} (hc : c ∈ Nat.toDigits 10 n) :
      (BitVec.ofNat 8 c.toNat).toNat = c.toNat := by
    have hlt : c.isDigit = true := Nat.isDigit_of_mem_toDigits (by decide) (by decide) hc
    have hle : c.toNat ≤ 57 := by
      simp only [Char.isDigit, Bool.and_eq_true, decide_eq_true_eq, UInt32.le_iff_toNat_le] at hlt
      exact hlt.2
    rw [BitVec.toNat_ofNat, Nat.mod_eq_of_lt (by omega)]
  have hchars : ((Nat.toDigits 10 n).map fun c => BitVec.ofNat 8 c.toNat).map BitVec.toNat =
      (Nat.toDigits 10 n).map Char.toNat := by
    rw [List.map_map]
    exact List.map_congr_left fun c hc => hdigit hc
  rw [sevenDigits, List.map_append, List.map_replicate, hchars]
  refine (Ts.decimal_replicate _ _).trans ?_
  rw [Ts.decimal, List.foldl_map]
  exact Nat.ofDigitChars_ten_toDigits

theorem isDigitOctet_eq (o : Octet) : Ts.isDigitOctet o = isDigit o := by
  rw [isDigit, Bool.decide_and]
  rfl

/-- What a stub sends is a frame of the client. -/
theorem wellFormed_message {value : Node ρ} {message : List Octet}
    (h : encodeMessage D .JSON value = some message) : Ts.WellFormed message (write D value) := by
  obtain ⟨hlong, rfl⟩ := encodeMessage_JSON h
  refine .json _ _ (length_sevenDigits hlong) (fun o ho => ?_) (decimal_sevenDigits _)
  rw [isDigitOctet_eq]
  exact isDigit_of_mem_sevenDigits ho

/-- The length that a client writes counts UTF-16 units. A stub finds all octets of an object
behind the header nevertheless. -/
theorem drop_send {text : List Char} {written : List Octet}
    (h : Ts.send (some .JSON) (.text ('{' :: text)) = .ok written) (beyond : ℕ → Octet) :
    StaysInside beyond written ∧
      written.drop (getJsonHeaderLen (memory written beyond) written.length).1 =
        Utf8.encode ('{' :: text) := by
  rw [Ts.send, if_pos rfl] at h
  split_ifs at h with hlong
  obtain rfl := Except.ok.inj h
  obtain ⟨hlength, hdigits, -⟩ := Ts.padStart_spec (Nat.not_lt.mp hlong)
  have htext : Utf8.encode ('{' :: text) = 0x7B :: Utf8.encode text := by
    rw [Utf8.encode_cons]
    rfl
  have hbrace : isDigit 0x7B#8 = false := by decide
  generalize Ts.padStart _ = digits at *
  obtain _ | ⟨a, _ | ⟨b, _ | ⟨c, _ | ⟨d, _ | ⟨e, _ | ⟨f, _ | ⟨g, _ | _⟩⟩⟩⟩⟩⟩⟩ := digits
  case cons.cons.cons.cons.cons.cons.cons.nil =>
    rw [Ts.Payload.written, htext]
    refine ⟨(staysInside_iff beyond _).mpr ⟨List.cons_ne_nil _ _, fun _ _ =>
      ⟨8, by decide, 0x7B, rfl, hbrace⟩⟩, ?_⟩
    simp only [List.all_cons, isDigitOctet_eq, Bool.and_eq_true] at hdigits
    simp [getJsonHeaderLen, headerLoop, memory, hdigits, hbrace, Ts.frameStartJson, letterJ]
  all_goals simp at hlength

/-- A letter of two octets, which the header counts as one. -/
theorem drop_send_umlaut : ∃ written, Ts.send (some .JSON) (.text ['{', 'ü', '}']) = .ok written ∧
    written.drop (getJsonHeaderLen (memory written fun _ => 0x30) written.length).1 =
      Utf8.encode ['{', 'ü', '}'] :=
  ⟨_, rfl, (drop_send rfl fun _ => 0x30).2⟩

end Esnacc.JsonFraming
