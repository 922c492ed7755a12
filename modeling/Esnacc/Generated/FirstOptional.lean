import Esnacc.Generated.SequenceCodec
import Esnacc.Lib.Extends

/-!
The alternative tag of the first OPTIONAL element of a SEQUENCE: when the generator prints it,
and when the decoder that has it reads what the one without it reads.
-/

namespace Esnacc.Generated

open BitString Tlv

variable {α : Type}

/-- An element in front of the generator, with the number of the universal tag that
`BasicType2UnivCodeStr` has for its root type, which an open type does not have; `noOutput` is
`IsDeprecatedNoOutputMember`. -/
structure SeqElmt (α : Type) where
  elmt : BerElmt α
  strict : elmt.lenient = none
  univCode : Option ℕ
  univCode_any : elmt.kind = .any → univCode = none
  noOutput : Bool

/-! ### What the compiler accepts -/

/-- The tags that `AddFirstTag` adds for an element. -/
def BerElmt.firstTags (e : BerElmt α) : List BerTag :=
  if e.stoleChoiceTags then e.tags else e.tags.head?.toList

/-- `AddFirstTag`; nothing when a tag is defined already. -/
def addFirstTag (dO : List BerTag) (e : BerElmt α) : Option (List BerTag) :=
  e.firstTags.foldlM (fun dO tag =>
    if dO.any fun tag' => tag'.tclass = tag.tclass && tag'.code = tag.code then none
    else some (tag :: dO)) dO

/-- `ChkSeqTags` reports nothing. -/
def chkSeqTags : List BerTag → List (BerElmt α) → Bool
  | _, [] => true
  | dO, e :: elmts =>
      if e.isPtr then
        match addFirstTag dO e with
        | some dO => chkSeqTags dO elmts
        | none => false
      else if dO.isEmpty = false then (addFirstTag dO e).isSome && chkSeqTags [] elmts
      else chkSeqTags [] elmts

/-! ### The generator -/

/-- What the loop over the OPTIONAL elements looks at. -/
def SeqElmt.optionalTag (e : SeqElmt α) : Option BerTag :=
  if e.elmt.optional then e.elmt.tags.head? else none

def iNotContextSpecificOptionals (elmts : List (SeqElmt α)) : ℕ :=
  (elmts.filterMap SeqElmt.optionalTag).countP fun tag => tag.tclass ≠ .cntx

/-- Nothing stands for -1. -/
def iFirstContextOptionalStartsWith (elmts : List (SeqElmt α)) : Option ℕ :=
  ((elmts.filterMap SeqElmt.optionalTag).find? fun tag => tag.tclass = .cntx).map BerTag.code

/-- `parser` becomes `OPTIONALSTATE_BEFOREFIRST`. -/
def beforeFirst (elmts : List (SeqElmt α)) : Bool :=
  (iFirstContextOptionalStartsWith elmts).any fun code =>
    (iNotContextSpecificOptionals elmts = 1 && 0 < code) ||
      (iNotContextSpecificOptionals elmts = 0 && code = 0)

/-- The tag that is printed in `OPTIONALSTATE_FIRST`, in both forms. -/
def SeqElmt.alternative (e : SeqElmt α) : Option BerTag :=
  match e.elmt.tags with
  | [] => none
  | tag :: _ =>
      if e.elmt.kind = .extension ∨ e.elmt.stoleChoiceTags then none
      else if tag.tclass = .cntx then e.univCode.map fun code => ⟨.univ, .anyForm, code⟩
      else some ⟨.cntx, .anyForm, 0⟩

/-- The element in `OPTIONALSTATE_FIRST`. -/
def SeqElmt.first (e : SeqElmt α) : BerElmt α := { e.elmt with lenient := e.alternative }

/-- The elements from `OPTIONALSTATE_BEFOREFIRST` on. -/
def matchFirst : List (SeqElmt α) → List (BerElmt α)
  | [] => []
  | e :: elmts =>
      if e.elmt.optional then e.first :: elmts.map SeqElmt.elmt else e.elmt :: matchFirst elmts

/-- The elements that are printed. -/
def printed (elmts : List (SeqElmt α)) : List (SeqElmt α) := elmts.filter fun e => !e.noOutput

/-- The emitted elements. -/
def emitted (elmts : List (SeqElmt α)) : List (BerElmt α) :=
  if beforeFirst elmts then matchFirst (printed elmts) else (printed elmts).map SeqElmt.elmt

/-- The elements without the alternative match. -/
def plain (elmts : List (SeqElmt α)) : List (BerElmt α) := (printed elmts).map SeqElmt.elmt

/-! ### What is to be kept -/

/-- Whatever the decoder without the alternative match accepts is decoded to the same value. -/
def KeepsAccepted (elmts : List (SeqElmt α)) : Prop :=
  ∀ elmtLen0 bytesDecoded s r,
    (bDecSequence (plain elmts) elmtLen0 bytesDecoded).run s = .ok r →
      (bDecSequence (emitted elmts) elmtLen0 bytesDecoded).run s = .ok r

/-- The first OPTIONAL element that is printed, and what stands in front of it and behind it. -/
def firstOptional : List (SeqElmt α) → Option (List (BerElmt α) × SeqElmt α × List (BerElmt α))
  | [] => none
  | e :: elmts =>
      if e.elmt.optional then some ([], e, elmts.map SeqElmt.elmt)
      else (firstOptional elmts).map fun split => (e.elmt :: split.1, split.2)

/-- The member with the alternative tag and no other. -/
def BerElmt.retagged (e : BerElmt α) (tag : BerTag) : BerElmt α :=
  { e with tags := [tag], lenient := none }

/-- The octets of the members of a value, as the decoder without the alternative match takes
them. -/
structure IsContent (elmts : List (BerElmt α)) (ps : List (Option (Piece α))) : Prop where
  fits : List.Forall₂ BerElmt.Fits elmts ps
  distinguished : Distinguished elmts ps

/-- Contents in which the first OPTIONAL member is written with the alternative tag instead are
decoded to the same value. -/
def TakesAlternative (elmts : List (SeqElmt α)) : Prop :=
  ReadsFirstTag (plain elmts) → AdditionsLast (plain elmts) →
  ∀ pre e post alt, beforeFirst elmts = true →
    firstOptional (printed elmts) = some (pre, e, post) → e.alternative = some alt →
  ∀ psPre p psPost, psPre.length = pre.length →
    IsContent (plain elmts) (psPre ++ some p :: psPost) →
  ∀ p' : Piece α, (e.elmt.retagged alt).Recovers p' → p'.value = p.value →
  ∀ elmtLen0 bytesDecoded closing total,
    Closes ((plain elmts).any fun e => e.kind = .extension) elmtLen0 bytesDecoded
      (contents (psPre ++ some p' :: psPost)).length (psPre ++ some p' :: psPost) closing total →
  ∀ past rest, Cursor.Reads past rest (bDecSequence (emitted elmts) elmtLen0 bytesDecoded)
    (contents (psPre ++ some p' :: psPost) ++ closing)
    (⟨values (psPre ++ some p :: psPost), []⟩, total)

/-! ### The condition -/

/-- The decoder does not get past these elements with this tag. -/
def Blocked (tag1 : AsnTag) : List (BerElmt α) → Prop
  | [] => False
  | e :: elmts =>
      if e.kind = .extension then Blocked tag1 elmts
      else e.test tag1 = false ∧ (e.required = true ∨ Blocked tag1 elmts)

/-- An element that can be absent right in front of the first OPTIONAL one does not accept the
tag. -/
def Passed (tag1 : AsnTag) : List (BerElmt α) → Prop
  | [] => True
  | e :: pre =>
      ((∀ e' ∈ pre, e'.isPtr = true ∨ e'.kind = .extension) → e.isPtr = true →
        e.kind = .extension ∨ e.test tag1 = false) ∧ Passed tag1 pre

/-- Behind the first OPTIONAL member is one that may not be absent, and neither it nor the
members between begin with the alternative tag; nor does a member with a DEFAULT right in front
of it; and the first OPTIONAL member has no further tags. -/
def Apart (elmts : List (SeqElmt α)) : Prop :=
  ∀ pre e post alt, firstOptional (printed elmts) = some (pre, e, post) →
    e.alternative = some alt →
    (∀ tag1, alt.accepts tag1 = true → Blocked tag1 post ∧ Passed tag1 pre) ∧
      e.elmt.tags.length = 1

/-! ### The elements -/

theorem plain_eq {elmts : List (SeqElmt α)} {pre e post}
    (h : firstOptional elmts = some (pre, e, post)) :
    elmts.map SeqElmt.elmt = pre ++ e.elmt :: post ∧
      matchFirst elmts = pre ++ e.first :: post ∧ e.elmt.optional = true := by
  induction elmts generalizing pre with
  | nil => cases h
  | cons d elmts ih =>
      rw [firstOptional] at h
      split_ifs at h with hopt
      · cases h
        rw [matchFirst, if_pos hopt]
        exact ⟨rfl, rfl, hopt⟩
      · obtain ⟨⟨pre', rest⟩, hsplit, heq⟩ := Option.map_eq_some_iff.mp h
        cases heq
        obtain ⟨hplain, hmatch, hoptional⟩ := ih hsplit
        rw [matchFirst, if_neg hopt, List.map_cons, hplain, hmatch]
        exact ⟨rfl, rfl, hoptional⟩

theorem matchFirst_eq_map {elmts : List (SeqElmt α)} (h : firstOptional elmts = none) :
    matchFirst elmts = elmts.map SeqElmt.elmt := by
  induction elmts with
  | nil => rfl
  | cons d elmts ih =>
      rw [firstOptional] at h
      split_ifs at h with hopt
      rw [matchFirst, if_neg hopt, ih (Option.map_eq_none_iff.mp h), List.map_cons]

/-! ### What is accepted without the alternative match -/

theorem Blocked.not_ok {tag1 : AsnTag} {elmts : List (BerElmt α)} (h : Blocked tag1 elmts)
    (extension : Bool) (elmtLen0 bytesDecoded n : ℕ) (s r) :
    (bDecElmts extension elmtLen0 bytesDecoded elmts tag1 n).run s ≠ .ok r := by
  induction elmts generalizing r with
  | nil => exact h.elim
  | cons e elmts ih =>
      have hskip (hrest : Blocked tag1 elmts) (f : SequenceObject α × ℕ → BerM _) :
          (bDecElmts extension elmtLen0 bytesDecoded elmts tag1 n >>= f).run s ≠ .ok r := by
        rw [StateT.run_bind]
        cases hrun : (bDecElmts extension elmtLen0 bytesDecoded elmts tag1 n).run s with
        | ok r' => exact absurd hrun (ih hrest r')
        | error err => exact fun h => by cases h
      rw [Blocked] at h
      rw [bDecElmts]
      split_ifs at h ⊢ with hkind htest hreq
      · exact hskip h _
      · rw [htest] at h
        exact Bool.noConfusion h.1
      · exact fun h => by cases h
      · exact hskip (h.2.resolve_left hreq) _

theorem SeqElmt.test_first (e : SeqElmt α) (tag1 : AsnTag) :
    e.first.test tag1 = (e.elmt.test tag1 || e.alternative.any fun tg => tg.accepts tag1) := by
  obtain ⟨⟨tags, stoleChoiceTags, kind, optional, hasDefault, extensionAddition, lenient,
    hasShortLen, cls⟩, strict, univCode, univCode_any, noOutput⟩ := e
  obtain rfl : lenient = none := strict
  cases tags with
  | nil => exact (Bool.or_false _).symm
  | cons tg tags =>
      cases stoleChoiceTags with
      | true =>
          have halt : (if kind = .extension ∨ true = true then none
              else if tg.tclass = .cntx then univCode.map fun code => ⟨.univ, .anyForm, code⟩
              else some ⟨.cntx, .anyForm, 0⟩ : Option BerTag) = none := if_pos (.inr rfl)
          show _ = (_ || Option.any _ (if kind = .extension ∨ true = true then none
              else if tg.tclass = .cntx then univCode.map fun code => ⟨.univ, .anyForm, code⟩
              else some ⟨.cntx, .anyForm, 0⟩ : Option BerTag))
          rw [halt]
          exact (Bool.or_false _).symm
      | false =>
          show (tg.accepts tag1 || _) = ((tg.accepts tag1 || false) || _)
          rw [Bool.or_false]
          rfl

/-- With a tag that only the alternative accepts, the elements behind are tried next. -/
theorem extends_first {e : SeqElmt α} {post : List (BerElmt α)}
    (h : ∀ alt, e.alternative = some alt → ∀ tag1, alt.accepts tag1 = true → Blocked tag1 post)
    (extension : Bool) (elmtLen0 bytesDecoded : ℕ) (tag1 : AsnTag) (n : ℕ) :
    Extends (bDecElmts extension elmtLen0 bytesDecoded (e.elmt :: post) tag1 n)
      (bDecElmts extension elmtLen0 bytesDecoded (e.first :: post) tag1 n) := by
  by_cases hsame : e.first.test tag1 = e.elmt.test tag1
  · have heq : bDecElmts extension elmtLen0 bytesDecoded (e.first :: post) tag1 n =
        bDecElmts extension elmtLen0 bytesDecoded (e.elmt :: post) tag1 n := by
      rw [bDecElmts, bDecElmts, hsame]
      rfl
    rw [heq]
    exact Extends.refl _
  · -- the tests differ only for the alternative tag, with which nothing behind gets on
    have hblocked : Blocked tag1 post := by
      cases halt : e.alternative with
      | none =>
          rw [e.test_first, halt, Option.any_none, Bool.or_false] at hsame
          exact absurd rfl hsame
      | some alt =>
          refine h alt halt tag1 (by_contra fun hno => hsame ?_)
          rw [e.test_first, halt, Option.any_some, Bool.eq_false_iff.mpr hno, Bool.or_false]
    have htest : e.elmt.test tag1 = false := by
      by_contra htrue
      rw [e.test_first, Bool.eq_true_of_not_eq_false htrue, Bool.true_or] at hsame
      exact hsame rfl
    refine Extends.of_fails fun s r => @Blocked.not_ok α tag1 (e.elmt :: post) ?_ _ _ _ _ s r
    rw [Blocked]
    split_ifs
    · exact hblocked
    · exact ⟨htest, .inr hblocked⟩

/-! What is seen of a list of elements when no tag is looked at is the same with and without the
alternative tag. -/

section Seen

variable (pre : List (BerElmt α)) (e : SeqElmt α) (post : List (BerElmt α))

theorem map_first {β : Type} {f : BerElmt α → β} (h : f e.first = f e.elmt) :
    (pre ++ e.first :: post).map f = (pre ++ e.elmt :: post).map f := by
  rw [List.map_append, List.map_append, List.map_cons, List.map_cons, h]

theorem all_first {f : BerElmt α → Bool} (h : f e.first = f e.elmt) :
    (pre ++ e.first :: post).all f = (pre ++ e.elmt :: post).all f := by
  rw [List.all_append, List.all_append, List.all_cons, List.all_cons, h]

theorem any_extension_first : ((pre ++ e.first :: post).any fun e => e.kind = .extension) =
    (pre ++ e.elmt :: post).any fun e => e.kind = .extension := by
  rw [List.any_append, List.any_append]
  rfl

theorem clear_first : SequenceObject.clear (pre ++ e.first :: post) =
    SequenceObject.clear (pre ++ e.elmt :: post) := by
  rw [SequenceObject.clear, SequenceObject.clear, map_first pre e post rfl]

end Seen

/-- An element does not look at the alternative tags of the elements behind it. -/
theorem bDecNext_first (elmtLen0 : ℕ) (pre : List (BerElmt α)) (e : SeqElmt α)
    (post : List (BerElmt α)) :
    bDecNext elmtLen0 (pre ++ e.first :: post) = bDecNext elmtLen0 (pre ++ e.elmt :: post) := by
  have hall : (pre ++ e.first :: post).all BerElmt.mayBeAbsent =
      (pre ++ e.elmt :: post).all BerElmt.mayBeAbsent := all_first pre e post rfl
  cases pre with
  | nil =>
      funext tag1 n
      rw [List.nil_append, List.nil_append] at hall ⊢
      rw [bDecNext, bDecNext, hall]
      rfl
  | cons d pre =>
      funext tag1 n
      rw [List.cons_append, List.cons_append] at hall ⊢
      rw [bDecNext, bDecNext, hall]

theorem extends_bDecElmts {pre : List (BerElmt α)} {e : SeqElmt α} {post : List (BerElmt α)}
    (h : ∀ alt, e.alternative = some alt → ∀ tag1, alt.accepts tag1 = true → Blocked tag1 post)
    (extension : Bool) (elmtLen0 bytesDecoded : ℕ) (tag1 : AsnTag) (n : ℕ) :
    Extends (bDecElmts extension elmtLen0 bytesDecoded (pre ++ e.elmt :: post) tag1 n)
      (bDecElmts extension elmtLen0 bytesDecoded (pre ++ e.first :: post) tag1 n) := by
  induction pre generalizing tag1 n with
  | nil => exact extends_first h extension elmtLen0 bytesDecoded tag1 n
  | cons d pre ih =>
      rw [List.cons_append, List.cons_append, bDecElmts, bDecElmts, bDecNext_first, clear_first]
      split_ifs
      · exact (ih tag1 n).bind_left
      · refine Extends.bind_right _ fun r => Extends.bind_right _ fun next => ?_
        cases next with
        | finished m => exact Extends.refl _
        | goOn tag1 m => exact (ih tag1 m).bind_left
      · exact Extends.refl _
      · exact (ih tag1 n).bind_left

theorem extends_bDecSequence {pre : List (BerElmt α)} {e : SeqElmt α} {post : List (BerElmt α)}
    (h : ∀ alt, e.alternative = some alt → ∀ tag1, alt.accepts tag1 = true → Blocked tag1 post)
    (elmtLen0 bytesDecoded : ℕ) :
    Extends (bDecSequence (pre ++ e.elmt :: post) elmtLen0 bytesDecoded)
      (bDecSequence (pre ++ e.first :: post) elmtLen0 bytesDecoded) := by
  have hany := any_extension_first pre e post
  have hall : (pre ++ e.first :: post).all BerElmt.isPtr =
      (pre ++ e.elmt :: post).all BerElmt.isPtr := all_first pre e post rfl
  have hclear := clear_first pre e post
  have hloop := fun extension => @extends_bDecElmts α pre e post h extension elmtLen0 bytesDecoded
  have hhead : ∃ d d' rest rest', pre ++ e.elmt :: post = d :: rest ∧
      pre ++ e.first :: post = d' :: rest' ∧ d'.isUntaggedAny = d.isUntaggedAny ∧
      d'.extensionAddition = d.extensionAddition := by
    cases pre with
    | nil => exact ⟨_, _, _, _, rfl, rfl, rfl, rfl⟩
    | cons d pre => exact ⟨d, d, _, _, rfl, rfl, rfl, rfl⟩
  obtain ⟨d, d', rest, rest', heq, heq', huntagged, haddition⟩ := hhead
  rw [heq, heq'] at hany hall hclear hloop ⊢
  rw [bDecSequence, bDecSequence, hany, hall, hclear, huntagged, haddition]
  split_ifs
  · exact Extends.refl _
  · refine Extends.bind_right _ fun r => ?_
    dsimp only
    split_ifs
    · exact Extends.refl _
    · exact hloop _ _ _
  · refine Extends.bind_right _ fun r => ?_
    dsimp only
    split_ifs
    · exact Extends.refl _
    · exact hloop _ _ _
  · exact hloop _ _ _
  · exact Extends.refl _
  · exact Extends.bind_right _ fun r => hloop _ _ _

theorem keepsAccepted {elmts : List (SeqElmt α)} (h : Apart elmts) : KeepsAccepted elmts := by
  intro elmtLen0 bytesDecoded s r hr
  rw [emitted]
  split_ifs
  · cases hfirst : firstOptional (printed elmts) with
    | none =>
        rw [matchFirst_eq_map hfirst]
        exact hr
    | some split =>
        obtain ⟨pre, e, post⟩ := split
        obtain ⟨hplain, hmatch, -⟩ := plain_eq hfirst
        rw [plain, hplain] at hr
        rw [hmatch]
        refine extends_bDecSequence (fun alt halt tag1 haccepts => ?_) elmtLen0 bytesDecoded s r hr
        exact ((h pre e post alt hfirst halt).1 tag1 haccepts).1
  · exact hr

/-! ### The alternative tag -/

theorem stoleChoiceTags_of_alternative {e : SeqElmt α} {alt : BerTag}
    (halt : e.alternative = some alt) : e.elmt.stoleChoiceTags = false := by
  rw [SeqElmt.alternative] at halt
  split at halt
  · cases halt
  · split_ifs at halt with hno
    all_goals exact Bool.eq_false_iff.mpr fun hstole => hno (.inr hstole)

/-- An open type is not unwrapped behind the alternative tag, nor behind the tag that it has. -/
theorem unwraps_first {e : SeqElmt α} {alt tg : BerTag} (htags : e.elmt.tags = [tg])
    (halt : e.alternative = some alt) : e.first.unwraps = (e.elmt.retagged alt).unwraps := by
  have hany : e.elmt.kind = .any → alt = ⟨.cntx, .anyForm, 0⟩ ∧ tg.tclass ≠ .cntx := by
    intro hkind
    rw [SeqElmt.alternative, htags, e.univCode_any hkind] at halt
    dsimp only at halt
    split_ifs at halt with hno hcntx
    · cases halt
    · exact ⟨(Option.some.inj halt).symm, hcntx⟩
  clear halt
  obtain ⟨⟨tags, stoleChoiceTags, kind, optional, hasDefault, extensionAddition, lenient,
    hasShortLen, cls⟩, strict, univCode, univCode_any, noOutput⟩ := e
  obtain rfl : tags = [tg] := htags
  show (_ && decide (kind = .any) && (decide (tg.tclass = .cntx) && decide (tg.form = .cons))) =
    (_ && decide (kind = .any) && (decide (alt.tclass = .cntx) && decide (alt.form = .cons)))
  by_cases hkind : kind = .any
  · obtain ⟨rfl, hclass⟩ := hany hkind
    show (_ && _ && (decide (tg.tclass = .cntx) && _)) = (_ && _ && (true && false))
    rw [decide_eq_false hclass, Bool.false_and, Bool.and_false, Bool.and_false, Bool.and_false]
  · rw [decide_eq_false hkind, Bool.and_false, Bool.false_and, Bool.and_false, Bool.false_and]

/-- Behind a tag of its own, a member is read as behind the alternative tag. -/
theorem bDecElmt_retagged {e : SeqElmt α} {alt : BerTag} (halt : e.alternative = some alt)
    (hsingle : e.elmt.tags.length = 1) (tag1 : AsnTag) (n : ℕ) :
    e.first.bDecElmt tag1 n = (e.elmt.retagged alt).bDecElmt tag1 n := by
  obtain ⟨tg, htags⟩ := List.length_eq_one_iff.mp hsingle
  have hstole := stoleChoiceTags_of_alternative halt
  have hheader : e.first.bDecHeader tag1 n = (e.elmt.retagged alt).bDecHeader tag1 n := by
    rw [BerElmt.bDecHeader, BerElmt.bDecHeader, show e.first.tags = [tg] from htags]
    rfl
  have hcontents (tag1 : AsnTag) (elmtLens : List ℕ) (n : ℕ) :
      e.first.bDecContents tag1 elmtLens n =
        (e.elmt.retagged alt).bDecContents tag1 elmtLens n := by
    rw [BerElmt.bDecContents, BerElmt.bDecContents, BerElmt.bDecKey, BerElmt.bDecKey,
      unwraps_first htags halt]
    rfl
  rw [BerElmt.bDecElmt, BerElmt.bDecElmt, hheader]
  exact congrArg _ (funext fun r => hcontents r.1 r.2.1 r.2.2)

theorem recovers_first {e : SeqElmt α} {alt : BerTag} (halt : e.alternative = some alt)
    (hsingle : e.elmt.tags.length = 1) {p : Piece α} (h : (e.elmt.retagged alt).Recovers p) :
    e.first.Recovers p ∧ alt.accepts (tagOf p.key) = true := by
  have haccepts : alt.accepts (tagOf p.key) = true := by
    have htest : (alt.accepts (tagOf p.key) || if e.elmt.stoleChoiceTags then false else false) =
        true := h.accepted
    rwa [ite_self, Bool.or_false] at htest
  refine ⟨⟨h.ne_extension, h.isIdentifier, h.length_key_le, ?_, fun past rest n => ?_⟩, haccepts⟩
  · rw [e.test_first, halt, Option.any_some, haccepts, Bool.or_true]
  · rw [bDecElmt_retagged halt hsingle]
    exact h.reads past rest n

theorem firstPiece_append {psPre psPost : List (Option (Piece α))} (h : firstPiece psPre = none)
    (p : Piece α) : firstPiece (psPre ++ some p :: psPost) = some p := by
  induction psPre with
  | nil => rfl
  | cons o psPre ih =>
      cases o with
      | none => exact ih h
      | some q => cases h

theorem firstPiece_append_of_some {psPre : List (Option (Piece α))} {q : Piece α}
    (h : firstPiece psPre = some q) (ps : List (Option (Piece α))) :
    firstPiece (psPre ++ ps) = some q := by
  induction psPre with
  | nil => cases h
  | cons o psPre ih =>
      cases o with
      | none => exact ih h
      | some q' => exact h

theorem absent_of_fits {elmts : List (BerElmt α)} {ps : List (Option (Piece α))}
    (hfits : List.Forall₂ BerElmt.Fits elmts ps) (h : firstPiece ps = none) :
    ∀ e ∈ elmts, e.isPtr = true ∨ e.kind = .extension := by
  induction hfits with
  | nil => exact fun e he => absurd he List.not_mem_nil
  | @cons e o elmts ps hfit _ ih =>
      cases o with
      | some q => cases h
      | none =>
          refine List.forall_mem_cons.mpr ⟨?_, ih h⟩
          rcases hfit with ⟨hkind, -⟩ | ⟨-, hptr⟩
          · exact .inr hkind
          · exact .inl hptr

/-- With the other tag at its place, the first OPTIONAL member is still found. -/
theorem distinguished_alternative {pre : List (BerElmt α)} {e : SeqElmt α}
    {post : List (BerElmt α)} {psPre psPost : List (Option (Piece α))} {p p' : Piece α}
    (hfits : List.Forall₂ BerElmt.Fits pre psPre)
    (h : Distinguished (pre ++ e.elmt :: post) (psPre ++ some p :: psPost))
    (hpassed : Passed (tagOf p'.key) pre) :
    Distinguished (pre ++ e.first :: post) (psPre ++ some p' :: psPost) := by
  induction hfits with
  | nil => exact h
  | @cons d o pre psPre hfit hrest ih =>
      cases o with
      | some q => exact ih h hpassed.2
      | none =>
          refine ⟨fun q hq => ?_, ih h.2 hpassed.2⟩
          cases hnext : firstPiece psPre with
          | some q' =>
              have hsome := firstPiece_append_of_some hnext
              exact h.1 q ((hsome _).trans ((hsome _).symm.trans hq))
          | none =>
              obtain rfl : p' = q := Option.some.inj ((firstPiece_append hnext p').symm.trans hq)
              rcases hfit with ⟨hkind, -⟩ | ⟨-, hptr⟩
              · exact .inl hkind
              · exact hpassed.1 (absent_of_fits hrest hnext) hptr

theorem takesAlternative {elmts : List (SeqElmt α)} (h : Apart elmts) : TakesAlternative elmts := by
  intro hreads hadd pre e post alt hbefore hfirst halt psPre p psPost hlen hcontent p' hp' hvalue
    elmtLen0 bytesDecoded closing total hclose past rest
  obtain ⟨hplain, hmatch, -⟩ := plain_eq hfirst
  obtain ⟨htags, hsingle⟩ := h pre e post alt hfirst halt
  obtain ⟨hrecovers, haccepts⟩ := recovers_first halt hsingle hp'
  have hemitted : emitted elmts = pre ++ e.first :: post := by
    rw [emitted, if_pos hbefore, hmatch]
  obtain ⟨hfits, hdist⟩ := hcontent
  rw [plain, hplain] at hfits hdist hreads hadd hclose
  have hfitsPre : List.Forall₂ BerElmt.Fits pre psPre := by
    have htake := List.forall₂_take_append _ _ _ hfits
    rwa [List.take_left' hlen.symm] at htake
  have hfitsRest : List.Forall₂ BerElmt.Fits (e.elmt :: post) (some p :: psPost) := by
    have hdrop := List.forall₂_drop_append _ _ _ hfits
    rwa [List.drop_left' hlen.symm] at hdrop
  have hfitsPost := (List.forall₂_cons.mp hfitsRest).2
  have hfits' : List.Forall₂ BerElmt.Fits (pre ++ e.first :: post) (psPre ++ some p' :: psPost) :=
    List.rel_append hfitsPre (.cons hrecovers hfitsPost)
  have hdist' := distinguished_alternative hfitsPre hdist (htags _ haccepts).2
  have hadd' : AdditionsLast (pre ++ e.first :: post) := by
    have hmap : (pre ++ e.first :: post).map BerElmt.extensionAddition =
        (pre ++ e.elmt :: post).map BerElmt.extensionAddition := map_first pre e post rfl
    have hiff (es : List (BerElmt α)) : AdditionsLast es ↔
        (es.map BerElmt.extensionAddition).Pairwise fun add add' => add = true → add' = true := by
      rw [List.pairwise_map]
      exact Iff.rfl
    rwa [hiff, hmap, ← hiff]
  have hreads' : ReadsFirstTag (pre ++ e.first :: post) := by
    cases pre with
    | nil =>
        intro d hd
        obtain rfl := Option.mem_some_iff.mp hd
        exact hreads e.elmt rfl
    | cons d pre => exact hreads
  obtain ⟨q, hq⟩ : ∃ q, firstPiece (psPre ++ some p' :: psPost) = some q := by
    cases hnext : firstPiece psPre with
    | none => exact ⟨p', firstPiece_append hnext p'⟩
    | some q => exact ⟨q, firstPiece_append_of_some hnext _⟩
  have hany := any_extension_first pre e post
  have hvalues : values (psPre ++ some p :: psPost) = values (psPre ++ some p' :: psPost) := by
    rw [values, values, List.map_append, List.map_append, List.map_cons, List.map_cons,
      Option.map_some, Option.map_some, hvalue]
  rw [hemitted, hvalues]
  exact bDecSequence_reads hfits' hdist' hadd' hreads' hq (hany ▸ hclose) past rest

/-- `[code] BOOLEAN`, which may be OPTIONAL. -/
def taggedBoolean (code : ℕ) (optional : Bool) : SeqElmt (List Octet) :=
  ⟨booleanElmt code optional, rfl, some 1, (fun h => by cases h), false⟩

/-- `BOOLEAN`. -/
def untaggedBoolean (optional hasDefault : Bool) : SeqElmt (List Octet) :=
  ⟨{ booleanElmt 1 optional with tags := [⟨.univ, .prim, 1⟩], hasDefault := hasDefault }, rfl,
    some 1, (fun h => by cases h), false⟩

end Esnacc.Generated
