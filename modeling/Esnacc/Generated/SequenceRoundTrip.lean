import Esnacc.Generated.Sequence

/-!
What the decoder of a SEQUENCE makes of the encoding of a value, in both forms of the length. The
induction follows the list of the elements; in front of each step the tag of the next member that
is present has been read.
-/

namespace Esnacc.Generated

open BitString Tlv

variable {α : Type}

/-- The encoding of a member: the tag that is looked ahead at, and what follows it. -/
structure Piece (α : Type) where
  value : α
  key : List Octet
  body : List Octet

def Piece.octets (p : Piece α) : List Octet := p.key ++ p.body

/-- The element is read from this encoding of it. -/
structure BerElmt.Recovers (e : BerElmt α) (p : Piece α) : Prop where
  ne_extension : e.kind ≠ .extension
  isIdentifier : isIdentifier p.key = true
  length_key_le : p.key.length ≤ 4
  accepted : e.test (tagOf p.key) = true
  reads : ∀ past rest n, ∃ tag1, Cursor.Reads (p.key.reverse ++ past) rest
    (e.bDecElmt (tagOf p.key) n) p.body (p.value, tag1, n + p.body.length)

/-- What an element can contribute to the encoding of a value. -/
def BerElmt.Fits (e : BerElmt α) : Option (Piece α) → Prop
  | some p => e.Recovers p
  | none => (e.kind = .extension ∧ e.extensionAddition = true) ∨
      (e.kind ≠ .extension ∧ e.isPtr = true)

def contents (ps : List (Option (Piece α))) : List Octet :=
  ps.flatMap fun p => p.elim [] Piece.octets

def values (ps : List (Option (Piece α))) : List (Option α) := ps.map (Option.map Piece.value)

def firstPiece : List (Option (Piece α)) → Option (Piece α)
  | [] => none
  | some p :: _ => some p
  | none :: ps => firstPiece ps

/-- The contents behind the first tag. -/
def afterKey : List (Option (Piece α)) → List Octet
  | [] => []
  | some p :: ps => p.body ++ contents ps
  | none :: ps => afterKey ps

/-- An element that is absent does not accept the tag of the next member that is present. -/
def Distinguished : List (BerElmt α) → List (Option (Piece α)) → Prop
  | e :: elmts, none :: ps =>
      (∀ p, firstPiece ps = some p → e.kind = .extension ∨ e.test (tagOf p.key) = false) ∧
        Distinguished elmts ps
  | _ :: elmts, some _ :: ps => Distinguished elmts ps
  | _, _ => True

theorem contents_eq {ps : List (Option (Piece α))} {p : Piece α} (h : firstPiece ps = some p) :
    contents ps = p.key ++ afterKey ps := by
  induction ps with
  | nil => cases h
  | cons o ps ih =>
      cases o with
      | none => exact ih h
      | some q =>
          obtain rfl : q = p := Option.some.inj h
          rw [contents, List.flatMap_cons, Option.elim_some, Piece.octets, List.append_assoc]
          rfl

theorem absent_of_firstPiece {ps : List (Option (Piece α))} (h : firstPiece ps = none) :
    contents ps = [] ∧ values ps = ps.map fun _ => none := by
  induction ps with
  | nil => exact ⟨rfl, rfl⟩
  | cons o ps ih =>
      cases o with
      | none => exact ⟨(ih h).1, congrArg (none :: ·) (ih h).2⟩
      | some q => cases h

theorem getLast?_of_firstPiece {ps : List (Option (Piece α))} (h : firstPiece ps = none)
    (hne : ps ≠ []) : ps.getLast? = some none := by
  induction ps with
  | nil => exact absurd rfl hne
  | cons o ps ih =>
      cases o with
      | some q => cases h
      | none =>
          cases ps with
          | nil => rfl
          | cons o' ps =>
              rw [List.getLast?_cons_cons]
              exact ih h (List.cons_ne_nil _ _)

theorem values_absent {elmts : List (BerElmt α)} {ps : List (Option (Piece α))}
    (h : firstPiece ps = none) (hlen : elmts.length = ps.length) :
    (⟨values ps, []⟩ : SequenceObject α) = .clear elmts := by
  rw [SequenceObject.clear, (absent_of_firstPiece h).2, List.map_const', List.map_const', hlen]

theorem mayBeAbsent_of_firstPiece {elmts : List (BerElmt α)} {ps : List (Option (Piece α))}
    (hfits : List.Forall₂ BerElmt.Fits elmts ps) (h : firstPiece ps = none) :
    elmts.all BerElmt.mayBeAbsent = true := by
  induction hfits with
  | nil => rfl
  | @cons e o elmts ps hfit hrest ih =>
      cases o with
      | some q => cases h
      | none =>
          rw [List.all_cons, ih h, Bool.and_true, BerElmt.mayBeAbsent]
          rcases hfit with ⟨-, hadd⟩ | ⟨-, hptr⟩
          · rw [hadd, Bool.or_true]
          · rw [BerElmt.isPtr] at hptr
            rw [hptr, Bool.true_or]

/-- How the contents end when `m` octets of them have been counted: by the length, or by two
zero octets. -/
def Ends (elmtLen0 m : ℕ) (closing : List Octet) : Prop :=
  m < indefiniteLen ∧
    ((elmtLen0 = m ∧ closing = []) ∨ (elmtLen0 = indefiniteLen ∧ closing = endOfContents))

theorem bDecTag_eoc (past rest : List Octet) (n : ℕ) :
    Cursor.Reads past rest (bDecTag n) [0] (0, n + 1) := rfl

theorem bDecTag_eoc_bind {β : Type} {f : AsnTag × ℕ → BerM β} {past rest ys : List Octet} {c : β}
    {n : ℕ} (h : Cursor.Reads (0 :: past) rest (f (0, n + 1)) ys c) :
    Cursor.Reads past rest (bDecTag n >>= f) (0 :: ys) c :=
  (bDecTag_eoc past (ys ++ rest) n).bind h

theorem bDec2ndEocOctet_reads (past rest : List Octet) (n : ℕ) :
    Cursor.Reads past rest (bDec2ndEocOctet n) [0] (n + 1) := rfl

theorem bDecValidateEnd_at_end {elmtLen0 n : ℕ} {closing : List Octet}
    (h : Ends elmtLen0 n closing) (past rest : List Octet) :
    Cursor.Reads past rest (bDecValidateEnd elmtLen0 n) closing (.finished (n + closing.length)) := by
  obtain ⟨hlt, ⟨rfl, rfl⟩ | ⟨rfl, rfl⟩⟩ := h
  · rw [bDecValidateEnd, if_pos rfl]
    exact Cursor.Reads.pure _ _ _
  · rw [bDecValidateEnd, if_neg hlt.ne]
    refine bDecTag_eoc_bind ?_
    dsimp only
    rw [if_pos ⟨rfl, rfl⟩]
    exact (bDec2ndEocOctet_reads _ _ _).bind_pure Next.finished

/-- In front of the next member its tag is read. -/
theorem bDecValidateEnd_goOn {elmtLen0 n m : ℕ} {closing key : List Octet}
    (h : Ends elmtLen0 m closing) (hlt : n < m) (hkey : isIdentifier key = true)
    (hlen : key.length ≤ 4) (past rest : List Octet) :
    Cursor.Reads past rest (bDecValidateEnd elmtLen0 n) key
      (.goOn (tagOf key) (n + key.length)) := by
  have hne : n ≠ elmtLen0 := by
    obtain ⟨hm, ⟨rfl, -⟩ | ⟨rfl, -⟩⟩ := h
    · exact hlt.ne
    · exact (hlt.trans hm).ne
  have hread := bDecTag_reads past rest hkey hlen n
  rw [bDecValidateEnd, if_neg hne, Cursor.Reads, hread.run_bind]
  dsimp only
  rw [if_neg fun h => AsnExtension.tagOf_ne_zero hkey h.2]
  rfl

/-- The extension additions of a type come last. -/
def AdditionsLast (elmts : List (BerElmt α)) : Prop :=
  elmts.Pairwise fun e e' => e.extensionAddition = true → e'.extensionAddition = true

/-- Between two members the tag of the second one is read. -/
theorem bDecNext_goOn {elmts : List (BerElmt α)} {ps : List (Option (Piece α))} {p : Piece α}
    (hfits : List.Forall₂ BerElmt.Fits elmts ps) (hadd : AdditionsLast elmts)
    (hp : firstPiece ps = some p) (hkey : isIdentifier p.key = true) (hlen : p.key.length ≤ 4)
    {elmtLen0 n m : ℕ} {closing : List Octet} (hend : Ends elmtLen0 m closing) (hlt : n < m)
    (tag1 : AsnTag) (past rest : List Octet) :
    Cursor.Reads past rest (bDecNext elmtLen0 elmts tag1 n) p.key
      (.goOn (tagOf p.key) (n + p.key.length)) := by
  cases hfits with
  | nil => cases hp
  | @cons e o elmts ps hfit hrest =>
      rw [bDecNext]
      by_cases htail : (e :: elmts).all BerElmt.mayBeAbsent = true
      · rw [if_pos htail]
        exact bDecValidateEnd_goOn hend hlt hkey hlen past rest
      · have hroot : e.extensionAddition ≠ true := by
          intro he
          refine htail (List.all_eq_true.mpr fun e' he' => ?_)
          have hadd' : e'.extensionAddition = true := by
            rcases List.mem_cons.mp he' with rfl | he'
            · exact he
            · exact (List.pairwise_cons.mp hadd).1 e' he' he
          rw [BerElmt.mayBeAbsent, hadd', Bool.or_true]
        rw [if_neg htail, if_neg hroot]
        exact (bDecTag_reads past rest hkey hlen n).bind_pure fun r => Next.goOn r.1 r.2

/-- Contents that end with the last element have to have the length that was given. -/
theorem bDecSequenceEnd_definite (extension : Bool) {m : ℕ} (hlt : m < indefiniteLen)
    (bytesDecoded : ℕ) (tag1 : AsnTag) (past rest : List Octet) :
    Cursor.Reads past rest (bDecSequenceEnd extension m bytesDecoded tag1 m) []
      ((⟨[], []⟩ : SequenceObject α), bytesDecoded + m) := by
  rw [bDecSequenceEnd]
  cases extension with
  | true =>
      have hstop : Cursor.Reads past rest (AsnExtension.readFromBuffer tag1 m m) [] ([], m) :=
        AsnExtension.readFromBuffer_stop (.inl rfl) _
      rw [if_pos rfl]
      exact hstop.bind_pure fun r => ((⟨[], r.1⟩ : SequenceObject α), bytesDecoded + r.2)
  | false =>
      rw [if_neg Bool.false_ne_true, if_neg hlt.ne, if_neg (not_not_intro rfl)]
      exact Cursor.Reads.pure _ _ _

/-- What the first member that is present was written by. -/
theorem recovers_firstPiece {elmts : List (BerElmt α)} {ps : List (Option (Piece α))} {p : Piece α}
    (hfits : List.Forall₂ BerElmt.Fits elmts ps) (hp : firstPiece ps = some p) :
    ∃ e ∈ elmts, e.Recovers p := by
  induction hfits with
  | nil => cases hp
  | @cons e o elmts ps hfit hrest ih =>
      cases o with
      | some q =>
          obtain rfl : q = p := Option.some.inj hp
          exact ⟨e, List.mem_cons_self, hfit⟩
      | none =>
          obtain ⟨e', he', hrec⟩ := ih hp
          exact ⟨e', List.mem_cons_of_mem _ he', hrec⟩

/-- How the decoder of a SEQUENCE ends: in `BDecValidateEnd` when the last element is absent, and
in the code behind the last element when that is present. -/
structure Closes (extension : Bool) (elmtLen0 bytesDecoded m : ℕ) (ps : List (Option (Piece α)))
    (closing : List Octet) (total : ℕ) : Prop where
  inside : ∃ closing', Ends elmtLen0 m closing'
  absent : ps.getLast? = some none →
    Ends elmtLen0 m closing ∧ total = bytesDecoded + (m + closing.length)
  present : ps.getLast? ≠ some none → ∀ tag1 past rest, Cursor.Reads past rest
    (bDecSequenceEnd extension elmtLen0 bytesDecoded tag1 m) closing
    ((⟨[], []⟩ : SequenceObject α), total)

theorem Closes.of_cons {extension : Bool} {elmtLen0 bytesDecoded m : ℕ} {o o' : Option (Piece α)}
    {ps : List (Option (Piece α))} {closing : List Octet} {total : ℕ}
    (h : Closes extension elmtLen0 bytesDecoded m (o :: o' :: ps) closing total) :
    Closes extension elmtLen0 bytesDecoded m (o' :: ps) closing total := by
  obtain ⟨hinside, habsent, hpresent⟩ := h
  rw [List.getLast?_cons_cons] at habsent hpresent
  exact ⟨hinside, habsent, hpresent⟩

/-- From the tag of a member on, the rest of the contents is read as it was written. -/
theorem bDecElmts_reads {elmts : List (BerElmt α)} {ps : List (Option (Piece α))} {p : Piece α}
    (hfits : List.Forall₂ BerElmt.Fits elmts ps) (hdist : Distinguished elmts ps)
    (hadd : AdditionsLast elmts) (hp : firstPiece ps = some p) (extension : Bool)
    {elmtLen0 bytesDecoded n m total : ℕ} {closing : List Octet}
    (hend : Closes extension elmtLen0 bytesDecoded m ps closing total)
    (hm : m = n + (afterKey ps).length) (past rest : List Octet) :
    Cursor.Reads (p.key.reverse ++ past) rest
      (bDecElmts extension elmtLen0 bytesDecoded elmts (tagOf p.key) n) (afterKey ps ++ closing)
      (⟨values ps, []⟩, total) := by
  induction hfits generalizing n p past with
  | nil => cases hp
  | @cons e o elmts ps hfit hrest ih =>
      rw [bDecElmts]
      cases o with
      | none =>
          -- The element is passed over.
          obtain ⟨hdiste, hdist⟩ := hdist
          have hend' : Closes extension elmtLen0 bytesDecoded m ps closing total := by
            cases ps with
            | nil => cases hp
            | cons o ps => exact hend.of_cons
          have hread := ih hdist (List.pairwise_cons.mp hadd).2 hp hend' hm past
          have hpass := hread.bind_pure fun r => (r.1.cons none, r.2)
          have hreq : e.required = false ∨ e.kind = .extension := by
            rcases hfit with ⟨hkind, -⟩ | ⟨-, hptr⟩
            · exact .inr hkind
            · rw [BerElmt.isPtr, Bool.or_eq_true] at hptr
              left
              rw [BerElmt.required]
              rcases hptr with h | h <;> simp [h]
          by_cases hkind : e.kind = .extension
          · rw [if_pos hkind]
            exact hpass
          · have htest : e.test (tagOf p.key) = false := (hdiste p hp).resolve_left hkind
            rw [if_neg hkind, htest, if_neg Bool.false_ne_true, hreq.resolve_right hkind,
              if_neg Bool.false_ne_true]
            exact hpass
      | some q =>
          obtain rfl : q = p := Option.some.inj hp
          obtain ⟨tag1, hread⟩ := hfit.reads past (contents ps ++ (closing ++ rest)) n
          rw [if_neg hfit.ne_extension, if_pos hfit.accepted]
          rw [afterKey, List.length_append] at hm
          have hsplit : afterKey (some q :: ps) ++ closing =
              q.body ++ (contents ps ++ closing) := List.append_assoc _ _ _
          rw [hsplit]
          refine Cursor.Reads.bind (by rw [List.append_assoc]; exact hread) ?_
          cases hnext : firstPiece ps with
          | none =>
              have habsent := absent_of_firstPiece hnext
              rw [habsent.1, List.nil_append]
              rw [habsent.1, List.length_nil, Nat.add_zero] at hm
              cases hrest with
              | nil =>
                  have hclose := hend.present (by simp) tag1
                    (q.body.reverse ++ (q.key.reverse ++ past)) rest
                  have hread := hclose.bind_pure fun r => (r.1.cons (some q.value), r.2)
                  rw [hm] at hread
                  exact hread
              | @cons e' o' elmts' ps' hfit' hrest' =>
                  have htail := mayBeAbsent_of_firstPiece (.cons hfit' hrest') hnext
                  obtain ⟨hends, htotal⟩ := hend.absent (by
                    rw [List.getLast?_cons_cons]
                    exact getLast?_of_firstPiece hnext (List.cons_ne_nil _ _))
                  have hvalid := bDecValidateEnd_at_end (hm ▸ hends)
                    (q.body.reverse ++ (q.key.reverse ++ past)) rest
                  dsimp only
                  rw [bDecNext, if_pos htail, Cursor.Reads, hvalid.run_bind]
                  have hobj := @values_absent α (e' :: elmts') (o' :: ps') hnext (by
                    rw [List.length_cons, List.length_cons, hrest'.length_eq])
                  rw [← hobj, htotal, hm]
                  rfl
          | some p' =>
              obtain ⟨e', -, hrec⟩ := recovers_firstPiece hrest hnext
              have hcont := contents_eq hnext
              have hpos : 0 < p'.key.length := by
                cases hkey : p'.key with
                | nil =>
                    have := hrec.isIdentifier
                    rw [hkey] at this
                    cases this
                | cons o os => exact Nat.succ_pos _
              rw [hcont, List.length_append] at hm
              obtain ⟨closing', hends⟩ := hend.inside
              have hgo := bDecNext_goOn hrest (List.pairwise_cons.mp hadd).2 hnext
                hrec.isIdentifier hrec.length_key_le hends (show n + q.body.length < m by omega) tag1
                (q.body.reverse ++ (q.key.reverse ++ past)) (afterKey ps ++ (closing ++ rest))
              have hend' : Closes extension elmtLen0 bytesDecoded m ps closing total := by
                cases ps with
                | nil => cases hnext
                | cons o ps => exact hend.of_cons
              have hloop := ih hdist (List.pairwise_cons.mp hadd).2 hnext
                (n := n + q.body.length + p'.key.length) hend' (by omega)
                (q.body.reverse ++ (q.key.reverse ++ past))
              rw [hcont, List.append_assoc]
              refine Cursor.Reads.bind (by rw [List.append_assoc]; exact hgo) ?_
              exact hloop.bind_pure fun r => (r.1.cons (some q.value), r.2)

/-- The code in front of the first element reads its tag. -/
def ReadsFirstTag (elmts : List (BerElmt α)) : Prop :=
  ∀ e ∈ elmts.head?, e.isUntaggedAny = false ∧ e.extensionAddition = false

/-- A value with at least one member, in either form. -/
theorem bDecSequence_reads {elmts : List (BerElmt α)} {ps : List (Option (Piece α))} {p : Piece α}
    (hfits : List.Forall₂ BerElmt.Fits elmts ps) (hdist : Distinguished elmts ps)
    (hadd : AdditionsLast elmts) (hfirst : ReadsFirstTag elmts) (hp : firstPiece ps = some p)
    {elmtLen0 bytesDecoded total : ℕ} {closing : List Octet}
    (hend : Closes (elmts.any fun e => e.kind = .extension) elmtLen0 bytesDecoded
      (contents ps).length ps closing total) (past rest : List Octet) :
    Cursor.Reads past rest (bDecSequence elmts elmtLen0 bytesDecoded) (contents ps ++ closing)
      (⟨values ps, []⟩, total) := by
  obtain ⟨e', -, hrec⟩ := recovers_firstPiece hfits hp
  have hcont := contents_eq hp
  have htag : tagOf p.key ≠ 0 := AsnExtension.tagOf_ne_zero hrec.isIdentifier
  have hm : (contents ps).length = 0 + p.key.length + (afterKey ps).length := by
    rw [hcont, List.length_append, Nat.zero_add]
  have hread := bDecTag_reads past (afterKey ps ++ closing ++ rest) hrec.isIdentifier
    hrec.length_key_le 0
  have hloop := bDecElmts_reads hfits hdist hadd hp _ hend hm past rest
  have hpos : 0 < p.key.length := by
    cases hkey : p.key with
    | nil =>
        have hid := hrec.isIdentifier
        rw [hkey] at hid
        cases hid
    | cons o os => exact Nat.succ_pos _
  have hne : elmtLen0 ≠ 0 := by
    obtain ⟨closing', -, ⟨rfl, -⟩ | ⟨rfl, -⟩⟩ := hend.inside
    · omega
    · decide
  rw [show contents ps ++ closing = p.key ++ (afterKey ps ++ closing) by
    rw [hcont, List.append_assoc]]
  cases elmts with
  | nil =>
      cases hfits
      cases hp
  | cons e elmts =>
      obtain ⟨hany, hext⟩ := hfirst e rfl
      rw [bDecSequence]
      by_cases hall : (e :: elmts).all BerElmt.isPtr = true
      · rw [if_pos hall, if_neg hne, hany, if_neg Bool.false_ne_true]
        refine Cursor.Reads.bind hread ?_
        dsimp only
        rw [if_neg fun h => htag h.2]
        exact hloop
      · rw [if_neg hall, hany, hext, if_neg (by decide), if_neg hne]
        exact Cursor.Reads.bind hread hloop

/-- The encoding of every value is read back from its length, whichever members are present. -/
theorem bDecSequence_definite {elmts : List (BerElmt α)} {ps : List (Option (Piece α))}
    (hfits : List.Forall₂ BerElmt.Fits elmts ps) (hdist : Distinguished elmts ps)
    (hadd : AdditionsLast elmts) (hfirst : ReadsFirstTag elmts)
    (hlen : (contents ps).length < indefiniteLen) (bytesDecoded : ℕ) (past rest : List Octet) :
    Cursor.Reads past rest (bDecSequence elmts (contents ps).length bytesDecoded) (contents ps)
      (⟨values ps, []⟩, bytesDecoded + (contents ps).length) := by
  cases hp : firstPiece ps with
  | some p =>
      have hends : Ends (contents ps).length (contents ps).length [] := ⟨hlen, .inl ⟨rfl, rfl⟩⟩
      have hread := bDecSequence_reads hfits hdist hadd hfirst hp ⟨⟨[], hends⟩, fun _ => ⟨hends, rfl⟩,
        fun _ tag1 => bDecSequenceEnd_definite _ hlen bytesDecoded tag1⟩ past rest
      rwa [List.append_nil] at hread
  | none =>
      have hobj := values_absent hp hfits.length_eq
      rw [(absent_of_firstPiece hp).1, hobj]
      cases elmts with
      | nil => exact Cursor.Reads.pure _ _ _
      | cons e elmts =>
          obtain ⟨hany, hext⟩ := hfirst e rfl
          rw [bDecSequence, List.length_nil]
          by_cases hall : (e :: elmts).all BerElmt.isPtr = true
          · rw [if_pos hall, if_pos rfl]
            exact Cursor.Reads.pure _ _ _
          · rw [if_neg hall, hany, hext, if_neg (by decide), if_pos rfl]
            exact Cursor.Reads.pure _ _ _

/-- It is read back from the open form when the last element is absent. -/
theorem bDecSequence_indefinite {elmts : List (BerElmt α)} {ps : List (Option (Piece α))}
    (hfits : List.Forall₂ BerElmt.Fits elmts ps) (hdist : Distinguished elmts ps)
    (hadd : AdditionsLast elmts) (hfirst : ReadsFirstTag elmts)
    (hlen : (contents ps).length < indefiniteLen) (hlast : ps.getLast? = some none)
    (hmarker : contents ps = [] → elmts.all BerElmt.isPtr = true)
    (bytesDecoded : ℕ) (past rest : List Octet) :
    Cursor.Reads past rest (bDecSequence elmts indefiniteLen bytesDecoded)
      (contents ps ++ endOfContents)
      (⟨values ps, []⟩, bytesDecoded + (contents ps ++ endOfContents).length) := by
  rw [List.length_append]
  cases hp : firstPiece ps with
  | some p =>
      have hends : Ends indefiniteLen (contents ps).length endOfContents :=
        ⟨hlen, .inr ⟨rfl, rfl⟩⟩
      exact bDecSequence_reads hfits hdist hadd hfirst hp
        ⟨⟨_, hends⟩, fun _ => ⟨hends, rfl⟩, fun h => absurd hlast h⟩ past rest
  | none =>
      have hobj := values_absent hp hfits.length_eq
      have hempty := (absent_of_firstPiece hp).1
      have hall := hmarker hempty
      rw [hempty, hobj]
      cases elmts with
      | nil =>
          cases hfits
          cases hlast
      | cons e elmts =>
          obtain ⟨hany, -⟩ := hfirst e rfl
          rw [bDecSequence, if_pos hall, if_neg (by decide : indefiniteLen ≠ 0), hany,
            if_neg Bool.false_ne_true]
          refine bDecTag_eoc_bind ?_
          dsimp only
          rw [if_pos ⟨rfl, rfl⟩]
          exact (bDec2ndEocOctet_reads _ _ _).bind_pure fun n =>
            (SequenceObject.clear (e :: elmts), bytesDecoded + n)

end Esnacc.Generated
