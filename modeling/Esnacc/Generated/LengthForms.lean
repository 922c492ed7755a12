import Esnacc.Generated.SequenceCodec
import Esnacc.Generated.Set

/-!
The two forms of the length: the contents of a SEQUENCE or a SET after their length, and the same
contents with two zero octets behind them.
-/

namespace Esnacc.Generated

open BitString Tlv

variable {α : Type}

/-- Both forms give the same value, with the reader right behind them and every octet counted. -/
def ReadsBothForms (bDecContent : ℕ → ℕ → BerM (SequenceObject α × ℕ)) (content : List Octet)
    (obj : SequenceObject α) (bytesDecoded : ℕ) (past rest : List Octet) : Prop :=
  Cursor.Reads past rest (bDecContent content.length bytesDecoded) content
      (obj, bytesDecoded + content.length) ∧
    Cursor.Reads past rest (bDecContent indefiniteLen bytesDecoded) (content ++ endOfContents)
      (obj, bytesDecoded + (content ++ endOfContents).length)

/-- Both forms throw. -/
def FailsBothForms (bDecContent : ℕ → ℕ → BerM (SequenceObject α × ℕ)) (content : List Octet)
    (bytesDecoded : ℕ) (past rest : List Octet) : Prop :=
  Cursor.Fails past (content ++ rest) (bDecContent content.length bytesDecoded) ∧
    Cursor.Fails past (content ++ endOfContents ++ rest) (bDecContent indefiniteLen bytesDecoded)

/-- A program that stops in front of the second zero octet is not the one that is asked for. -/
theorem not_reads_of_half {β : Type} {m : BerM β} {xs past rest : List Octet} {a b : β}
    (h : Cursor.Reads past (0 :: rest) m (xs ++ [0]) a) :
    ¬ Cursor.Reads past rest m (xs ++ endOfContents) b := by
  intro h'
  have hahead : xs ++ endOfContents ++ rest = xs ++ [0] ++ 0 :: rest := by
    rw [List.append_assoc, List.append_assoc]
    rfl
  rw [Cursor.Reads, hahead, show m.run _ = _ from h] at h'
  have hrest := congrArg (fun r => Cursor.rest r.2) (Except.ok.inj h')
  have hlen := congrArg List.length hrest
  simp at hlen

theorem not_reads_of_half_nil {β : Type} {m : BerM β} {past rest : List Octet} {a b : β}
    (h : Cursor.Reads past (0 :: rest) m [0] a) : ¬ Cursor.Reads past rest m endOfContents b :=
  not_reads_of_half ((List.nil_append [(0 : Octet)]).symm ▸ h)

/-- The marker comes last, and no element has the tag that ends contents. -/
structure Closable (elmts : List (BerElmt α)) : Prop where
  marker_last : ∀ e ∈ elmts.dropLast, e.kind ≠ .extension
  test_eoc : ∀ e ∈ elmts, e.kind ≠ .extension → e.test 0 = false

theorem Closable.of_cons {e : BerElmt α} {elmts : List (BerElmt α)} (h : Closable (e :: elmts)) :
    Closable elmts := by
  refine ⟨fun e' he' => ?_, (List.forall_mem_cons.mp h.test_eoc).2⟩
  cases elmts with
  | nil => cases he'
  | cons e'' elmts =>
      exact h.marker_last e' (by rw [List.dropLast_cons_cons]; exact List.mem_cons_of_mem _ he')

/-- The first octet of the end of contents is passed over by every element. -/
theorem bDecElmts_eoc {elmts : List (BerElmt α)} {ps : List (Option (Piece α))}
    (hfits : List.Forall₂ BerElmt.Fits elmts ps) (hclose : Closable elmts)
    (hnone : firstPiece ps = none) (bytesDecoded n : ℕ) (past rest : List Octet) :
    Cursor.Reads past rest (bDecElmts true indefiniteLen bytesDecoded elmts 0 n) []
      (⟨values ps, []⟩, bytesDecoded + n) := by
  induction hfits with
  | nil =>
      have hstop : Cursor.Reads past rest (AsnExtension.readFromBuffer 0 indefiniteLen n) []
          ([], n) := AsnExtension.readFromBuffer_stop (.inr rfl) _
      rw [bDecElmts, bDecSequenceEnd, if_pos rfl]
      exact hstop.bind_pure fun r => ((⟨[], r.1⟩ : SequenceObject α), bytesDecoded + r.2)
  | @cons e o elmts ps hfit hrest ih =>
      cases o with
      | some q => cases hnone
      | none =>
          have hread := (ih hclose.of_cons hnone).bind_pure fun r => (r.1.cons none, r.2)
          rw [bDecElmts]
          rcases hfit with ⟨hkind, -⟩ | ⟨hkind, hptr⟩
          · rw [if_pos hkind]
            exact hread
          · have htest := hclose.test_eoc e List.mem_cons_self hkind
            have hreq : e.required = false := by
              rw [BerElmt.isPtr, Bool.or_eq_true] at hptr
              rw [BerElmt.required]
              rcases hptr with h | h <;> simp [h]
            rw [if_neg hkind, htest, if_neg Bool.false_ne_true, hreq, if_neg Bool.false_ne_true]
            exact hread

theorem fits_absent {elmts : List (BerElmt α)} {ps : List (Option (Piece α))}
    (hfits : List.Forall₂ BerElmt.Fits elmts ps) (hnone : firstPiece ps = none) :
    ∀ e ∈ elmts, e.Fits none := by
  induction hfits with
  | nil => exact fun _ he => by cases he
  | @cons e o elmts ps hfit hrest ih =>
      cases o with
      | some q => cases hnone
      | none => exact List.forall_mem_cons.mpr ⟨hfit, ih hnone⟩

/-- A type whose last element is present has no marker. -/
theorem ne_extension_of_last {elmts : List (BerElmt α)} {ps : List (Option (Piece α))}
    (hfits : List.Forall₂ BerElmt.Fits elmts ps) (hclose : Closable elmts)
    (hlast : ps.getLast? ≠ some none) : ∀ e ∈ elmts, e.kind ≠ .extension := by
  induction hfits with
  | nil => exact fun _ he => by cases he
  | @cons e o elmts ps hfit hrest ih =>
      cases hrest with
      | nil =>
          intro e' he'
          obtain rfl := List.mem_singleton.mp he'
          cases o with
          | none => exact absurd rfl hlast
          | some q =>
              have hrec : e'.Recovers q := hfit
              exact hrec.ne_extension
      | cons hfit' hrest' =>
          rw [List.getLast?_cons_cons] at hlast
          refine List.forall_mem_cons.mpr ⟨?_, ih hclose.of_cons hlast⟩
          exact hclose.marker_last e (by rw [List.dropLast_cons_cons]; exact List.mem_cons_self)

/-- With the last element present, one octet of the end of contents is left. -/
theorem not_reads_last_present {elmts : List (BerElmt α)} {ps : List (Option (Piece α))}
    (hfits : List.Forall₂ BerElmt.Fits elmts ps) (hdist : Distinguished elmts ps)
    (hadd : AdditionsLast elmts) (hfirst : ReadsFirstTag elmts) (hclose : Closable elmts)
    (hlen : (contents ps).length < indefiniteLen) (hlast : ps.getLast? ≠ some none)
    (bytesDecoded : ℕ) (past rest : List Octet) (b : SequenceObject α × ℕ) :
    ¬ Cursor.Reads past rest (bDecSequence elmts indefiniteLen bytesDecoded)
      (contents ps ++ endOfContents) b := by
  refine not_reads_of_half (a := (⟨values ps, []⟩, bytesDecoded + 2)) ?_
  cases hp : firstPiece ps with
  | none =>
      -- There is no element at all.
      cases hfits with
      | nil => rfl
      | cons hfit hrest => exact absurd (getLast?_of_firstPiece hp (List.cons_ne_nil _ _)) hlast
  | some p =>
      have hmarker : (elmts.any fun e => e.kind = .extension) = false := by
        rw [List.any_eq_false]
        intro e he
        rw [decide_eq_true_eq]
        exact ne_extension_of_last hfits hclose hlast e he
      have hends : Ends indefiniteLen (contents ps).length endOfContents := ⟨hlen, .inr ⟨rfl, rfl⟩⟩
      refine bDecSequence_reads hfits hdist hadd hfirst hp
        ⟨⟨_, hends⟩, fun h => absurd h hlast, fun _ tag1 past rest => ?_⟩ past (0 :: rest)
      rw [hmarker]
      rfl

/-- Empty contents of a type with a marker: the second octet of their end is left. -/
theorem not_reads_marker {elmts : List (BerElmt α)} {ps : List (Option (Piece α))}
    (hfits : List.Forall₂ BerElmt.Fits elmts ps) (hfirst : ReadsFirstTag elmts)
    (hclose : Closable elmts) (hempty : firstPiece ps = none) (hne : elmts ≠ [])
    (hall : elmts.all BerElmt.isPtr ≠ true) (bytesDecoded : ℕ) (past rest : List Octet)
    (b : SequenceObject α × ℕ) :
    ¬ Cursor.Reads past rest (bDecSequence elmts indefiniteLen bytesDecoded) endOfContents b := by
  have hmarker : (elmts.any fun e => e.kind = .extension) = true := by
    rw [List.any_eq_true]
    by_contra hno
    push Not at hno
    refine hall (List.all_eq_true.mpr fun e he => ?_)
    have hmay := fits_absent hfits hempty e he
    rcases hmay with ⟨hkind, -⟩ | ⟨-, hptr⟩
    · exact absurd (decide_eq_true hkind) (hno e he)
    · exact hptr
  refine not_reads_of_half_nil (a := (⟨values ps, []⟩, bytesDecoded + 1)) ?_
  have hread := bDecElmts_eoc hfits hclose hempty bytesDecoded 1 (0 :: past) (0 :: rest)
  cases elmts with
  | nil => exact absurd rfl hne
  | cons e elmts =>
      obtain ⟨hany, hext⟩ := hfirst e rfl
      rw [bDecSequence, if_neg hall, hany, hext, if_neg (by decide),
        if_neg (by decide : indefiniteLen ≠ 0), hmarker]
      exact bDecTag_eoc_bind hread

/-- The encoding of a value of a SEQUENCE is read from both forms exactly when the type has an
element, the last one is absent, and there is a member or every element may be absent. -/
theorem sequence_readsBothForms_iff {elmts : List (BerElmt α)} {ps : List (Option (Piece α))}
    (hfits : List.Forall₂ BerElmt.Fits elmts ps) (hdist : Distinguished elmts ps)
    (hadd : AdditionsLast elmts) (hfirst : ReadsFirstTag elmts) (hclose : Closable elmts)
    (hlen : (contents ps).length < indefiniteLen) (bytesDecoded : ℕ) (past rest : List Octet) :
    ReadsBothForms (bDecSequence elmts) (contents ps) ⟨values ps, []⟩ bytesDecoded past rest ↔
      ps.getLast? = some none ∧ (contents ps = [] → elmts.all BerElmt.isPtr = true) := by
  constructor
  · intro h
    have hlast : ps.getLast? = some none := by
      by_contra hlast
      exact not_reads_last_present hfits hdist hadd hfirst hclose hlen hlast _ _ _ _ h.2
    refine ⟨hlast, fun hempty => ?_⟩
    by_contra hall
    have hnone : firstPiece ps = none := by
      cases hp : firstPiece ps with
      | none => rfl
      | some p =>
          obtain ⟨e, -, hrec⟩ := recovers_firstPiece hfits hp
          have hpos := length_key_pos hrec
          have hcontents := contents_eq hp
          rw [hempty] at hcontents
          rw [(List.append_eq_nil_iff.mp hcontents.symm).1] at hpos
          exact absurd hpos (Nat.lt_irrefl 0)
    have hne : elmts ≠ [] := by
      rintro rfl
      cases hfits
      cases hlast
    have hopen := h.2
    rw [hempty, List.nil_append] at hopen
    exact not_reads_marker hfits hfirst hclose hnone hne hall _ _ _ _ hopen
  · rintro ⟨hlast, hmarker⟩
    exact ⟨bDecSequence_definite hfits hdist hadd hfirst hlen bytesDecoded past rest,
      bDecSequence_indefinite hfits hdist hadd hfirst hlen hlast hmarker bytesDecoded past rest⟩

/-- Contents of a SET that consist of members, in any order and any number, are read from both
forms to the same value or from neither, if the type has an element. -/
theorem set_bothForms_iff {elmts : List (BerElmt α)} {items : List (SetItem α)}
    (hitems : ∀ item ∈ items, item.Belongs elmts) (hlen : (setContents items).length < indefiniteLen)
    (bytesDecoded : ℕ) (past rest : List Octet) :
    ((∃ obj, ReadsBothForms (bDecSet elmts) (setContents items) obj bytesDecoded past rest) ∨
        FailsBothForms (bDecSet elmts) (setContents items) bytesDecoded past rest) ↔
      elmts ≠ [] := by
  constructor
  · rintro h rfl
    have hnil : items = [] := by
      cases items with
      | nil => rfl
      | cons item items =>
          have hfound := (hitems item List.mem_cons_self).found
          cases hfound
    subst hnil
    rcases h with ⟨obj, -, hopen⟩ | ⟨hdef, -⟩
    · refine not_reads_of_half_nil (a := (⟨[], []⟩, bytesDecoded + 2)) ?_ hopen
      rfl
    · obtain ⟨f, hf⟩ := hdef
      cases hf
  · intro hne
    have hends : Ends (setContents items).length (setContents items).length [] :=
      ⟨hlen, .inl ⟨rfl, rfl⟩⟩
    have hends' : Ends indefiniteLen (setContents items).length endOfContents :=
      ⟨hlen, .inr ⟨rfl, rfl⟩⟩
    have hdef := bDecSet_run hne hends hitems bytesDecoded past rest
    have hopen := bDecSet_run hne hends' hitems bytesDecoded past rest
    rw [List.append_nil] at hdef
    by_cases hcount : (putAll ⟨elmts.map fun _ => none, [], 0⟩ items).mandatoryElmtsDecoded <
        mandatoryElmtCount elmts
    · rw [if_pos hcount] at hdef hopen
      exact .inr ⟨⟨_, hdef⟩, ⟨_, hopen⟩⟩
    · rw [if_neg hcount] at hdef hopen
      rw [← List.length_append] at hopen
      exact .inl ⟨_, hdef, hopen⟩

/-- The encoding of TRUE under the tag `[0]`. -/
def truePiece : Piece (List Octet) := ⟨[0xFF], [0x80], [0x01, 0xFF]⟩

theorem recovers_truePiece (e : BerElmt (List Octet))
    (he : e = booleanElmt 0 false ∨ e = (booleanElmt 0 false).inSet) : e.Recovers truePiece := by
  have hreads : ∀ past rest n, Cursor.Reads ([0x80].reverse ++ past) rest
      (e.bDecElmt (tagOf [0x80]) n) [0x01, 0xFF] ([0xFF], tagOf [0x80], n + 2) := by
    intro past rest n
    rcases he with rfl | rfl <;> rfl
  rcases he with rfl | rfl
  · exact ⟨by decide, by decide, by decide, by decide, fun past rest n => ⟨_, hreads past rest n⟩⟩
  · exact ⟨by decide, by decide, by decide, by decide, fun past rest n => ⟨_, hreads past rest n⟩⟩

/-- `SEQUENCE { a [0] BOOLEAN, b [1] BOOLEAN OPTIONAL }`. -/
def twoElmts : List (BerElmt (List Octet)) := [booleanElmt 0 false, booleanElmt 1 true]

theorem fits_twoElmts : List.Forall₂ BerElmt.Fits twoElmts [some truePiece, none] :=
  .cons (show BerElmt.Recovers _ _ from recovers_truePiece _ (.inl rfl))
    (.cons (.inr ⟨by decide, rfl⟩) .nil)

end Esnacc.Generated
