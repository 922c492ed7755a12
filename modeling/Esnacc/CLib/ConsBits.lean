import Esnacc.CLib.Bits

/-!
Constructed BIT STRINGs in the C runtime library. The number of the bits that are not used in
the last piece is kept in a global variable, and nothing resets it before the next one is read.
-/

namespace Esnacc.CLib

open BitString

/-! ### Tags and lengths -/

/-- The loop of `BDecTag`: the octets behind the first one, of which there are at most so many. -/
def bDecLongTag : ℕ → AsnTag → ℕ → GenBuf → AsnTag × ℕ × GenBuf
  | 0, tagId, bytesDecoded, b => (tagId, bytesDecoded, b)
  | i + 1, tagId, bytesDecoded, b =>
      let (tmpTagId, b) := b.getByte
      let tagId := tagId ||| tagShift tmpTagId i
      if tmpTagId &&& 0x80 ≠ 0 then bDecLongTag i tagId (bytesDecoded + 1) b
      else (tagId, bytesDecoded + 1, b)

def bDecTag (b : GenBuf) (bytesDecoded : ℕ) : Except LongJmp (AsnTag × ℕ × GenBuf) :=
  let (first, b) := b.getByte
  let tagId := tagShift first 3
  let (tagId, bytesDecoded, b) :=
    if first &&& 0x1F = 0x1F then bDecLongTag 3 tagId (bytesDecoded + 1) b
    else (tagId, bytesDecoded + 1, b)
  if b.readError then .error ⟨-26⟩ else .ok (tagId, bytesDecoded, b)

/-- The octets of a long length. -/
def bDecLongLen : ℕ → ℕ → GenBuf → ℕ × GenBuf
  | 0, len, b => (len, b)
  | lenBytes + 1, len, b =>
      bDecLongLen lenBytes ((256 * len + b.getByte.1.toNat) % 2 ^ 64) b.getByte.2

def bDecLen (b : GenBuf) (bytesDecoded : ℕ) : Except LongJmp (ℕ × ℕ × GenBuf) :=
  let (byte, b) := b.getByte
  if b.readError then .error ⟨-13⟩
  else if byte.toNat < 128 then .ok (byte.toNat, bytesDecoded + 1, b)
  else if byte = 0x80 then .ok (indefiniteLen, bytesDecoded + 1, b)
  else
    let lenBytes := (byte &&& 0x7F).toNat
    if 8 < lenBytes then .error ⟨-14⟩
    else
      let (len, b) := bDecLongLen lenBytes 0 b
      if b.readError then .error ⟨-15⟩ else .ok (len, bytesDecoded + 1 + lenBytes, b)

/-- `BDEC_2ND_EOC_OCTET`. -/
def bDec2ndEocOctet (b : GenBuf) (bytesDecoded : ℕ) : Except LongJmp (ℕ × GenBuf) :=
  let (byte, b) := b.getByte
  if byte ≠ 0 ∨ b.readError then .error ⟨-28⟩ else .ok (bytesDecoded + 1, b)

/-! ### The pieces -/

/-- `unusedBitsG` and the strings of `strStkG`. -/
structure Globals where
  unusedBitsG : ℕ
  strStk : List (List Octet)
  deriving DecidableEq, Repr

/-- What the loop of `FillBitStringStk` comes to next. -/
inductive Element
  | eoc (totalElmtsLen1 : ℕ) (b : GenBuf)
  | piece (elmtLen1 totalElmtsLen1 : ℕ) (b : GenBuf)
  | constructed (elmtLen1 totalElmtsLen1 : ℕ) (b : GenBuf)
  deriving DecidableEq, Repr

def nextElement (b : GenBuf) (elmtLen0 totalElmtsLen1 : ℕ) : Except LongJmp Element := do
  let (tagId1, totalElmtsLen1, b) ← bDecTag b totalElmtsLen1
  if tagId1 = 0 ∧ elmtLen0 = indefiniteLen then
    let (totalElmtsLen1, b) ← bDec2ndEocOctet b totalElmtsLen1
    return .eoc totalElmtsLen1 b
  else
    let (elmtLen1, totalElmtsLen1, b) ← bDecLen b totalElmtsLen1
    if tagId1 = makeTagId 3 then return .piece elmtLen1 totalElmtsLen1 b
    else if tagId1 = makeTagId 3 ||| consBit then return .constructed elmtLen1 totalElmtsLen1 b
    else throw ⟨-3⟩

/-- A primitive piece: the strings that are pushed for it stand together. -/
def pushPiece (b : GenBuf) (elmtLen1 : ℕ) (g : Globals) : Except LongJmp GenBuf × Globals :=
  if g.unusedBitsG ≠ 0 then (.error ⟨-1⟩, g)
  else
    let (unusedBitsG, b) :=
      if elmtLen1 ≠ 0 then (b.getByte.1.toNat, b.getByte.2) else (g.unusedBitsG, b)
    let lenToRef := (elmtLen1 + (2 ^ 64 - 1)) % 2 ^ 64
    let g : Globals := ⟨unusedBitsG, g.strStk ++ [b.octets.take lenToRef]⟩
    if lenToRef ≤ b.octets.length then (.ok { b with octets := b.octets.drop lenToRef }, g)
    else (.error ⟨-2⟩, g)

/-- `FillBitStringStk`; it returns what it adds to `*bytesDecoded`. `none` when the fuel does not
suffice. -/
def fillBitStringStk : ℕ → GenBuf → ℕ → ℕ → Globals →
    Option (Except LongJmp (ℕ × GenBuf) × Globals)
  | 0, _, _, _, _ => none
  | fuel + 1, b, elmtLen0, totalElmtsLen1, g =>
      if totalElmtsLen1 < elmtLen0 ∨ elmtLen0 = indefiniteLen then
        match nextElement b elmtLen0 totalElmtsLen1 with
        | .error e => some (.error e, g)
        | .ok (.eoc totalElmtsLen1 b) => some (.ok (totalElmtsLen1, b), g)
        | .ok (.piece elmtLen1 totalElmtsLen1 b) =>
            match pushPiece b elmtLen1 g with
            | (.error e, g) => some (.error e, g)
            | (.ok b, g) => fillBitStringStk fuel b elmtLen0 (totalElmtsLen1 + elmtLen1) g
        | .ok (.constructed elmtLen1 totalElmtsLen1 b) =>
            match fillBitStringStk fuel b elmtLen1 0 g with
            | none => none
            | some (.error e, g) => some (.error e, g)
            | some (.ok (inner, b), g) =>
                fillBitStringStk fuel b elmtLen0 (totalElmtsLen1 + inner) g
      else some (.ok (totalElmtsLen1, b), g)

/-- What is in a buffer, and the length that has been read in front of it. -/
structure Contents where
  b : GenBuf
  len : ℕ

/-- `BDecConsAsnBits`, from this value of `unusedBitsG`: what it returns, and `unusedBitsG`
afterwards. -/
def bDecConsAsnBits (unusedBitsG : ℕ) (c : Contents) (bytesDecoded : ℕ) :
    Option (Except LongJmp (AsnBits × ℕ × GenBuf) × ℕ) :=
  match fillBitStringStk (c.b.octets.length + 1) c.b c.len 0 ⟨unusedBitsG, []⟩ with
  | none => none
  | some (.error e, g) => some (.error e, g.unusedBitsG)
  | some (.ok (total, b), g) =>
      let bitLen := toInt32 ((g.strStk.flatten.length : ℤ) * 8 - g.unusedBitsG)
      some (.ok (.ofOctets bitLen g.strStk.flatten, bytesDecoded + total, b), g.unusedBitsG)

/-- One constructed BIT STRING after the other; each has its own counter. -/
def decodeAll : ℕ → List Contents → Option (List (Except LongJmp (AsnBits × ℕ × GenBuf)))
  | _, [] => some []
  | unusedBitsG, c :: cs =>
      match bDecConsAsnBits unusedBitsG c 0 with
      | none => none
      | some (r, unusedBitsG) => (decodeAll unusedBitsG cs).map (r :: ·)

/-! ### The loop ends -/

theorem length_getByte (b : GenBuf) : b.getByte.2.octets.length ≤ b.octets.length ∧
    (b.getByte.2.readError = false → b.getByte.2.octets.length < b.octets.length) := by
  obtain ⟨_ | ⟨o, os⟩, e⟩ := b <;> simp [GenBuf.getByte]

theorem readError_getByte {b : GenBuf} (h : b.getByte.2.readError = false) :
    b.readError = false := by
  obtain ⟨_ | ⟨o, os⟩, e⟩ := b
  · cases h
  · exact h

theorem length_bDecLongTag (i : ℕ) (tagId : AsnTag) (n : ℕ) (b : GenBuf) :
    (bDecLongTag i tagId n b).2.2.octets.length ≤ b.octets.length ∧
      ((bDecLongTag i tagId n b).2.2.readError = false → b.readError = false) := by
  induction i generalizing tagId n b with
  | zero => exact ⟨le_rfl, id⟩
  | succ i ih =>
      have hbyte := length_getByte b
      simp only [bDecLongTag]
      split
      · obtain ⟨hle, herror⟩ := ih (tagId ||| tagShift b.getByte.1 i) (n + 1) b.getByte.2
        exact ⟨hle.trans hbyte.1, fun h => readError_getByte (herror h)⟩
      · exact ⟨hbyte.1, readError_getByte⟩

theorem length_bDecTag {b b' : GenBuf} {n n' : ℕ} {tagId : AsnTag}
    (h : bDecTag b n = .ok (tagId, n', b')) : b'.octets.length < b.octets.length := by
  have hbyte := length_getByte b
  simp only [bDecTag] at h
  by_cases hlong : b.getByte.1 &&& 0x1F = 0x1F
  · have hlen := length_bDecLongTag 3 (tagShift b.getByte.1 3) (n + 1) b.getByte.2
    simp only [if_pos hlong] at h
    split at h
    · cases h
    · next herror =>
        cases h
        exact lt_of_le_of_lt hlen.1 (hbyte.2 (hlen.2 (by simpa using herror)))
  · simp only [if_neg hlong] at h
    split at h
    · cases h
    · next herror =>
        rw [← show b.getByte.2 = b' from congrArg (fun r => r.2.2) (Except.ok.inj h)]
        exact hbyte.2 (by simpa using herror)

theorem length_bDecLongLen (k len : ℕ) (b : GenBuf) :
    (bDecLongLen k len b).2.octets.length ≤ b.octets.length := by
  induction k generalizing len b with
  | zero => exact le_rfl
  | succ k ih => exact (ih _ _).trans (length_getByte b).1

theorem length_bDecLen {b b' : GenBuf} {n n' len : ℕ} (h : bDecLen b n = .ok (len, n', b')) :
    b'.octets.length ≤ b.octets.length := by
  have hbyte := (length_getByte b).1
  rw [bDecLen] at h
  dsimp only at h
  by_cases herror : b.getByte.2.readError = true
  · rw [if_pos herror] at h
    cases h
  · rw [if_neg herror] at h
    by_cases hshort : b.getByte.1.toNat < 128
    · rw [if_pos hshort] at h
      cases h
      exact hbyte
    · rw [if_neg hshort] at h
      by_cases hopen : b.getByte.1 = 0x80
      · rw [if_pos hopen] at h
        cases h
        exact hbyte
      · rw [if_neg hopen] at h
        by_cases hlong : 8 < (b.getByte.1 &&& 0x7F).toNat
        · rw [if_pos hlong] at h
          cases h
        · rw [if_neg hlong] at h
          have hle := length_bDecLongLen (b.getByte.1 &&& 0x7F).toNat 0 b.getByte.2
          generalize bDecLongLen (b.getByte.1 &&& 0x7F).toNat 0 b.getByte.2 = r at h hle
          by_cases herror' : r.2.readError = true
          · rw [if_pos herror'] at h
            cases h
          · rw [if_neg herror'] at h
            cases h
            exact hle.trans hbyte

/-- The buffer behind an element. -/
def Element.rest : Element → GenBuf
  | eoc _ b | piece _ _ b | constructed _ _ b => b

theorem length_nextElement {b : GenBuf} {elmtLen0 total : ℕ} {e : Element}
    (h : nextElement b elmtLen0 total = .ok e) : e.rest.octets.length < b.octets.length := by
  rw [nextElement] at h
  rcases htag : bDecTag b total with err | ⟨tagId1, total₁, b₁⟩
  · rw [htag] at h
    cases h
  · have hlt := length_bDecTag htag
    rw [htag] at h
    change (if tagId1 = 0 ∧ elmtLen0 = indefiniteLen then _ else _) = _ at h
    split at h
    · rcases heoc : bDec2ndEocOctet b₁ total₁ with err | ⟨total₂, b₂⟩
      · rw [heoc] at h
        cases h
      · rw [heoc] at h
        cases h
        simp only [bDec2ndEocOctet] at heoc
        split at heoc
        · cases heoc
        · cases heoc
          exact lt_of_le_of_lt (length_getByte b₁).1 hlt
    · rcases hlen : bDecLen b₁ total₁ with err | ⟨elmtLen1, total₂, b₂⟩
      · rw [hlen] at h
        cases h
      · have hle := length_bDecLen hlen
        rw [hlen] at h
        change (if tagId1 = makeTagId 3 then _ else _) = _ at h
        split at h
        · cases h
          exact lt_of_le_of_lt hle hlt
        · split at h
          · cases h
            exact lt_of_le_of_lt hle hlt
          · cases h

theorem length_pushPiece {b b' : GenBuf} {elmtLen1 : ℕ} {g g' : Globals}
    (h : pushPiece b elmtLen1 g = (.ok b', g')) : b'.octets.length ≤ b.octets.length := by
  rw [pushPiece] at h
  by_cases hg : g.unusedBitsG ≠ 0
  · rw [if_pos hg] at h
    cases h
  · rw [if_neg hg] at h
    have hle : (if elmtLen1 ≠ 0 then (b.getByte.1.toNat, b.getByte.2)
        else (g.unusedBitsG, b)).2.octets.length ≤ b.octets.length := by
      split
      · exact (length_getByte b).1
      · exact le_rfl
    generalize (if elmtLen1 ≠ 0 then (b.getByte.1.toNat, b.getByte.2)
      else (g.unusedBitsG, b)) = r at h hle
    generalize (elmtLen1 + (2 ^ 64 - 1)) % 2 ^ 64 = lenToRef at h
    dsimp only at h
    by_cases hmore : lenToRef ≤ r.2.octets.length
    · rw [if_pos hmore] at h
      cases h
      rw [List.length_drop]
      omega
    · rw [if_neg hmore] at h
      cases h

/-- Every pass takes something from the buffer. -/
theorem fill_isSome {fuel : ℕ} {b : GenBuf} (elmtLen0 total : ℕ) (g : Globals)
    (h : b.octets.length < fuel) :
    ∃ r, fillBitStringStk fuel b elmtLen0 total g = some r ∧
      ∀ n b', r.1 = .ok (n, b') → b'.octets.length ≤ b.octets.length := by
  induction fuel generalizing b elmtLen0 total g with
  | zero => omega
  | succ fuel ih =>
      simp only [fillBitStringStk]
      by_cases hmore : total < elmtLen0 ∨ elmtLen0 = indefiniteLen
      · simp only [if_pos hmore]
        rcases hnext : nextElement b elmtLen0 total with e | element
        · exact ⟨_, rfl, by simp⟩
        · have hlt := length_nextElement hnext
          cases element with
          | eoc total b' =>
              refine ⟨_, rfl, fun n b'' hok => ?_⟩
              cases hok
              exact hlt.le
          | piece elmtLen1 total b₁ =>
              change b₁.octets.length < b.octets.length at hlt
              rcases hpush : pushPiece b₁ elmtLen1 g with ⟨e | b₂, g₁⟩
              · exact ⟨(.error e, g₁), by simp only [hpush], by simp⟩
              · have hle := length_pushPiece hpush
                obtain ⟨r, hr, hrest⟩ := ih elmtLen0 (total + elmtLen1) g₁
                  (show b₂.octets.length < fuel by omega)
                refine ⟨r, by simp only [hpush, hr], fun n b' hok => ?_⟩
                exact (hrest n b' hok).trans (hle.trans hlt.le)
          | constructed elmtLen1 total b₁ =>
              change b₁.octets.length < b.octets.length at hlt
              obtain ⟨⟨inner, g₁⟩, hinner, hle⟩ := ih elmtLen1 0 g
                (show b₁.octets.length < fuel by omega)
              rcases inner with e | ⟨inner, b₂⟩
              · exact ⟨(.error e, g₁), by simp only [hinner], by simp⟩
              · have hle' := hle inner b₂ rfl
                obtain ⟨r, hr, hrest⟩ := ih elmtLen0 (total + inner) g₁
                  (show b₂.octets.length < fuel by omega)
                refine ⟨r, by simp only [hinner, hr], fun n b' hok => ?_⟩
                exact (hrest n b' hok).trans (hle'.trans hlt.le)
      · simp only [if_neg hmore]
        refine ⟨_, rfl, fun n b' hok => ?_⟩
        cases hok
        exact le_rfl

/-- With unused bits left over, contents are read to the end only if there is no piece in
them. -/
theorem fill_of_unused {fuel : ℕ} {b : GenBuf} {elmtLen0 total : ℕ} {g g' : Globals}
    {r : ℕ × GenBuf} (hg : g.unusedBitsG ≠ 0)
    (h : fillBitStringStk fuel b elmtLen0 total g = some (.ok r, g')) :
    g' = g ∧ ∀ g₀, fillBitStringStk fuel b elmtLen0 total g₀ = some (.ok r, g₀) := by
  induction fuel generalizing b elmtLen0 total g g' r with
  | zero => cases h
  | succ fuel ih =>
      simp only [fillBitStringStk] at h ⊢
      by_cases hmore : total < elmtLen0 ∨ elmtLen0 = indefiniteLen
      · rw [if_pos hmore] at h
        simp only [if_pos hmore]
        rcases hnext : nextElement b elmtLen0 total with e | ⟨_ | _ | _⟩
        case error => simp [hnext] at h
        case ok.eoc total b =>
          simp only [hnext] at h
          cases h
          exact ⟨rfl, fun _ => rfl⟩
        case ok.piece elmtLen1 total b =>
          have hpush : pushPiece b elmtLen1 g = (.error ⟨-1⟩, g) := if_pos hg
          simp [hnext, hpush] at h
        case ok.constructed elmtLen1 total b =>
          simp only [hnext] at h
          rcases hinner : fillBitStringStk fuel b elmtLen1 0 g with _ | ⟨_ | ⟨inner, b'⟩, g₁⟩
          case none => simp [hinner] at h
          case some.error => simp [hinner] at h
          case some.ok =>
            obtain ⟨rfl, hfresh⟩ := ih hg hinner
            simp only [hinner] at h
            obtain ⟨rfl, hfresh'⟩ := ih hg h
            exact ⟨rfl, fun g₀ => by simp only [hfresh, hfresh']⟩
      · rw [if_neg hmore] at h
        cases h
        exact ⟨rfl, fun _ => if_neg hmore⟩

/-- A constructed encoding of a BIT STRING: it is decoded when it is the first, and the last
piece has no more unused bits than an octet has. -/
def Decodable (c : Contents) (x : AsnBits) : Prop :=
  ∃ bytesDecoded b unused, unused < 8 ∧
    bDecConsAsnBits 0 c 0 = some (.ok (x, bytesDecoded, b), unused)

/-- The result when it is the first that is decoded. -/
def fresh (c : Contents) : Option (Except LongJmp (AsnBits × ℕ × GenBuf)) :=
  (bDecConsAsnBits 0 c 0).map Prod.fst

theorem bDecCons_ok {g n k : ℕ} {c : Contents} {x : AsnBits} {m : ℕ} {b : GenBuf}
    (h : bDecConsAsnBits g c n = some (.ok (x, m, b), k)) : ∃ total strStk,
      fillBitStringStk (c.b.octets.length + 1) c.b c.len 0 ⟨g, []⟩ =
        some (.ok (total, b), ⟨k, strStk⟩) ∧
      x = .ofOctets (toInt32 ((strStk.flatten.length : ℤ) * 8 - k)) strStk.flatten := by
  rw [bDecConsAsnBits] at h
  rcases hfill : fillBitStringStk (c.b.octets.length + 1) c.b c.len 0 ⟨g, []⟩ with
    _ | ⟨e | ⟨total, b'⟩, k', strStk⟩
  · rw [hfill] at h
    cases h
  · rw [hfill] at h
    cases h
  · rw [hfill] at h
    cases h
    exact ⟨total, strStk, rfl, rfl⟩

/-- What is left over is what is missing to a multiple of eight. -/
theorem dvd_bitLen_iff {c : Contents} {x : AsnBits} {m k : ℕ} {b : GenBuf} (hk : k < 8)
    (h : bDecConsAsnBits 0 c 0 = some (.ok (x, m, b), k)) : 8 ∣ x.bitLen ↔ k = 0 := by
  obtain ⟨total, strStk, -, rfl⟩ := bDecCons_ok h
  have hmod := toInt32_emod ((strStk.flatten.length : ℤ) * 8 - k)
  simp only [AsnBits.ofOctets]
  omega

/-- With unused bits left over, the result is another. -/
theorem ne_fresh {g : ℕ} (hpos : g ≠ 0) (hg : g < 8) {c : Contents} {x : AsnBits}
    (h : Decodable c x) : (bDecConsAsnBits g c 0).map Prod.fst ≠ fresh c := by
  obtain ⟨m, b, k, -, hok⟩ := h
  intro heq
  rw [fresh, hok] at heq
  rcases hg' : bDecConsAsnBits g c 0 with _ | ⟨r, k'⟩
  · rw [hg'] at heq
    cases heq
  · rw [hg'] at heq
    cases heq
    obtain ⟨total, strStk, hfill, hx⟩ := bDecCons_ok hok
    obtain ⟨total', strStk', hfill', hx'⟩ := bDecCons_ok hg'
    obtain ⟨hsame, hfresh⟩ := fill_of_unused hpos hfill'
    rw [hfresh] at hfill
    cases hfill
    cases hsame
    have hlen := congrArg AsnBits.bitLen (hx.symm.trans hx')
    simp only [AsnBits.ofOctets, List.flatten_nil, List.length_nil] at hlen
    rw [toInt32_eq (by norm_num) (by norm_num), toInt32_eq (by push_cast; omega)
      (by push_cast; omega)] at hlen
    push_cast at hlen
    omega

theorem decodeAll_eq_iff {cs : List Contents} {xs : List AsnBits}
    (h : List.Forall₂ Decodable cs xs) {g : ℕ} (hg : g < 8) :
    decodeAll g cs = cs.mapM fresh ↔ (cs = [] ∨ g = 0) ∧ ∀ x ∈ xs.dropLast, 8 ∣ x.bitLen := by
  induction h generalizing g with
  | nil => simp [decodeAll]
  | @cons c x cs xs hc hcs ih =>
      have hfresh : ∃ rs, cs.mapM fresh = some rs := by
        clear ih
        induction hcs with
        | nil => exact ⟨[], rfl⟩
        | cons hc' _ ih' =>
            obtain ⟨rs, hrs⟩ := ih'
            obtain ⟨m, b, k, -, hok⟩ := hc'
            exact ⟨_, by rw [List.mapM_cons, fresh, hok, hrs]; rfl⟩
      obtain ⟨rs, hrs⟩ := hfresh
      by_cases hpos : g = 0
      · subst hpos
        obtain ⟨m, b, k, hk, hok⟩ := hc
        have hdvd := dvd_bitLen_iff hk hok
        have ih' := ih hk
        have hstep : decodeAll 0 (c :: cs) = (c :: cs).mapM fresh ↔
            decodeAll k cs = cs.mapM fresh := by
          have hfirst : fresh c = some (.ok (x, m, b)) := by rw [fresh, hok]; rfl
          rw [decodeAll, hok, List.mapM_cons, hfirst, hrs]
          cases hall : decodeAll k cs with
          | none => simp [hall]
          | some rs' => simp [hall]
        rw [hstep, ih']
        cases hcs with
        | nil => simp
        | cons hc' hcs' => simp [List.dropLast_cons_of_ne_nil, hdvd]
      · have hne := ne_fresh hpos hg hc
        refine iff_of_false (fun heq => hne ?_) (by simp [hpos])
        rw [decodeAll, List.mapM_cons, hrs] at heq
        obtain ⟨m, b, k, hk, hok⟩ := hc
        rcases hg' : bDecConsAsnBits g c 0 with _ | ⟨r, k'⟩
        · rw [hg', fresh, hok] at heq
          cases heq
        · rw [hg', fresh, hok] at heq
          rw [fresh, hok]
          dsimp only at heq
          cases hall : decodeAll k' cs with
          | none =>
              rw [hall] at heq
              cases heq
          | some rs' =>
              rw [hall] at heq
              have hhead := (List.cons_eq_cons.1 (Option.some.inj heq)).1
              exact congrArg some hhead

/-- A bit string comes back unchanged exactly when it is none of the special cases, and one
constructed encoding is decoded as if it were the first exactly when those before it are made of
whole octets. -/
theorem asnBits_roundTrips_iff (bits : ℕ → Octet) {n : ℕ} (hn : n < 2 ^ 31) {b : GenBuf}
    (hb : b.readError = false) {cs : List Contents} {xs : List AsnBits}
    (hcs : List.Forall₂ Decodable cs xs) :
    (RoundTrips b ⟨n, bits⟩ ↔ Plain bits n) ∧
      (decodeAll 0 cs = cs.mapM fresh ↔ ∀ x ∈ xs.dropLast, 8 ∣ x.bitLen) := by
  refine ⟨bits_roundTrips_iff bits hn hb, ?_⟩
  rw [decodeAll_eq_iff hcs (by decide)]
  simp

/-- Three bits, and two encodings of which only the last has unused bits. -/
theorem asnBits_roundTrips_three :
    (RoundTrips ⟨[], false⟩ ⟨(3 : ℕ), fun _ => 0xA0#8⟩ ↔ Plain (fun _ => 0xA0#8) 3) ∧
      (decodeAll 0 [⟨⟨[0x03#8, 0x02#8, 0x00#8, 0xFF#8], false⟩, 4⟩,
          ⟨⟨[0x03#8, 0x02#8, 0x04#8, 0xF0#8], false⟩, 4⟩] =
        [(⟨⟨[0x03#8, 0x02#8, 0x00#8, 0xFF#8], false⟩, 4⟩ : Contents),
          ⟨⟨[0x03#8, 0x02#8, 0x04#8, 0xF0#8], false⟩, 4⟩].mapM fresh ↔
        ∀ x ∈ [AsnBits.ofOctets 8 [0xFF#8], AsnBits.ofOctets 4 [0xF0#8]].dropLast,
          8 ∣ x.bitLen) :=
  asnBits_roundTrips_iff _ (by decide) rfl
    (.cons ⟨4, ⟨[], false⟩, 0, by decide, rfl⟩ (.cons ⟨4, ⟨[], false⟩, 4, by decide, rfl⟩ .nil))

/-- The bit string '1'B, the empty one in front of a zero, a string of zeros, and a second
constructed encoding behind one with four unused bits. -/
theorem asnBits_lost :
    ¬RoundTrips ⟨[], false⟩ ⟨(1 : ℕ), fun _ => 0x80#8⟩ ∧
      ¬RoundTrips ⟨[], false⟩ ⟨(0 : ℕ), fun _ => 0x00#8⟩ ∧
      ¬RoundTrips ⟨[], false⟩ ⟨(12 : ℕ), fun _ => 0x00#8⟩ ∧
      Decodable ⟨⟨[0x03#8, 0x02#8, 0x04#8, 0xF0#8], false⟩, 4⟩ (.ofOctets 4 [0xF0#8]) ∧
      (decodeAll 0 (List.replicate 2 ⟨⟨[0x03#8, 0x02#8, 0x04#8, 0xF0#8], false⟩, 4⟩)).map
        (List.map fun r => (r.map fun _ => ()).isOk) = some [true, false] := by
  refine ⟨?_, ?_, ?_, ⟨4, ⟨[], false⟩, 4, by decide, rfl⟩, rfl⟩
  · rw [bits_roundTrips_iff _ (by decide) rfl, Plain]
    simp
  · rw [bits_roundTrips_iff _ (by decide) rfl, Plain]
    simp
  · rw [bits_roundTrips_iff _ (by decide) rfl, Plain]
    simp

end Esnacc.CLib
