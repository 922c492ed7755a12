import Esnacc.Generated.SequenceCodec
import Esnacc.Generated.Set

/-!
What contents of definite length consist of when an emitted decoder has accepted them. The
relations below follow the octets as the code does; what they leave out is what makes an accepted
value incomplete.
-/

namespace Esnacc.Generated

open BitString Tlv

variable {α : Type}

/-- An element that has to occur in every value. -/
def BerElmt.isMandatory (e : BerElmt α) : Bool := e.kind ≠ .extension && !e.mayBeAbsent

/-- At `b` there is an encoding that the element takes, with `n` octets in front of it. -/
def BerElmt.ReadsAt (e : BerElmt α) (b : AsnBuf) (n : ℕ) (x : α) (b' : AsnBuf) (n' : ℕ) : Prop :=
  ∃ tag1 n₁ b₁ tag2, (bDecTag n).run b = .ok ((tag1, n₁), b₁) ∧ e.test tag1 = true ∧
    (e.bDecElmt tag1 n₁).run b₁ = .ok ((x, tag2, n'), b')

/-- The contents end in front of elements of which none has to come. -/
def Ended (elmtLen0 : ℕ) (elmts : List (BerElmt α)) (n : ℕ) : Prop :=
  n = elmtLen0 ∧ elmts.all BerElmt.mayBeAbsent = true

/-- The element has no encoding here. -/
def AbsentAt (elmtLen0 : ℕ) (e : BerElmt α) (elmts : List (BerElmt α)) (b : AsnBuf) (n : ℕ) : Prop :=
  e.kind = .extension ∨ Ended elmtLen0 (e :: elmts) n ∨
    ∃ tag1 n₁ b₁, (bDecTag n).run b = .ok ((tag1, n₁), b₁) ∧ e.test tag1 = false

/-- Members one after the other, in the order of the type and each at most once. -/
inductive InOrder (elmtLen0 : ℕ) :
    List (BerElmt α) → AsnBuf → ℕ → List (Option α) → AsnBuf → ℕ → Prop
  | nil (b : AsnBuf) (n : ℕ) : InOrder elmtLen0 [] b n [] b n
  | absent {e : BerElmt α} {elmts : List (BerElmt α)} {b b' : AsnBuf} {n n' : ℕ}
      {members : List (Option α)} (hmandatory : e.isMandatory = false)
      (hhere : AbsentAt elmtLen0 e elmts b n) (hrest : InOrder elmtLen0 elmts b n members b' n') :
      InOrder elmtLen0 (e :: elmts) b n (none :: members) b' n'
  | present {e : BerElmt α} {elmts : List (BerElmt α)} {b b₁ b' : AsnBuf} {n n₁ n' : ℕ} {x : α}
      {members : List (Option α)} (hkind : e.kind ≠ .extension)
      (hgo : ¬ Ended elmtLen0 (e :: elmts) n) (hhere : e.ReadsAt b n x b₁ n₁)
      (hrest : InOrder elmtLen0 elmts b₁ n₁ members b' n') :
      InOrder elmtLen0 (e :: elmts) b n (some x :: members) b' n'

/-- An encoding that is kept as its octets. -/
def ReadsUnknown (b : AsnBuf) (n : ℕ) (anyBuf : List Octet) (b' : AsnBuf) (n' : ℕ) : Prop :=
  ∃ tag n₁ b₁ len n₂ b₂, (bDecTag n).run b = .ok ((tag, n₁), b₁) ∧
    (bDecLen n₁).run b₁ = .ok ((len, n₂), b₂) ∧
    (AsnBuf.grabAnyEx (bytesInTag tag + n₂ - n₁) len n₂).run b₂ = .ok ((anyBuf, n'), b')

/-- Unknown elements up to the end of the contents. -/
inductive UnknownElmts (elmtLen0 : ℕ) :
    AsnBuf → ℕ → List (List Octet) → AsnBuf → ℕ → Prop
  | last {b b' : AsnBuf} {n n' : ℕ} {anyBuf : List Octet} (hhere : ReadsUnknown b n anyBuf b' n')
      (hend : elmtLen0 ≤ n') : UnknownElmts elmtLen0 b n [anyBuf] b' n'
  | cons {b b₁ b' : AsnBuf} {n n₁ n' : ℕ} {anyBuf : List Octet} {extension : List (List Octet)}
      (hhere : ReadsUnknown b n anyBuf b₁ n₁) (hgo : n₁ < elmtLen0)
      (hrest : UnknownElmts elmtLen0 b₁ n₁ extension b' n') :
      UnknownElmts elmtLen0 b n (anyBuf :: extension) b' n'

/-- How the code comes to an end behind the members. The last three ways need a marker. -/
inductive Tail (marker : Bool) (elmtLen0 : ℕ) (members : List (Option α)) :
    AsnBuf → ℕ → List (List Octet) → AsnBuf → ℕ → Prop
  | finished (b : AsnBuf) : Tail marker elmtLen0 members b elmtLen0 [] b elmtLen0
  | loneTag {b b' : AsnBuf} {n : ℕ} {tag : AsnTag} (hne : n ≠ elmtLen0)
      (htag : (bDecTag n).run b = .ok ((tag, elmtLen0), b')) :
      Tail marker elmtLen0 members b n [] b' elmtLen0
  | zeroTag {b b' : AsnBuf} {n n' : ℕ} (hmarker : marker = true) (hne : n ≠ elmtLen0)
      (htag : (bDecTag n).run b = .ok ((0, n'), b')) : Tail marker elmtLen0 members b n [] b' n'
  | unknown {b b' : AsnBuf} {n n' : ℕ} {extension : List (List Octet)} (hmarker : marker = true)
      (hne : n ≠ elmtLen0) (helmts : UnknownElmts elmtLen0 b n extension b' n') :
      Tail marker elmtLen0 members b n extension b' n'
  | staleTag {b b' : AsnBuf} {n n' : ℕ} {extension : List (List Octet)} (x : α)
      (hmarker : marker = true) (hne : n ≠ elmtLen0) (hlast : members.getLast? = some (some x)) :
      Tail marker elmtLen0 members b n extension b' n'

theorem Tail.cons {marker : Bool} {elmtLen0 : ℕ} {members : List (Option α)} {b b' : AsnBuf}
    {n n' : ℕ} {extension : List (List Octet)} (o : Option α)
    (h : Tail marker elmtLen0 members b n extension b' n') :
    Tail marker elmtLen0 (o :: members) b n extension b' n' := by
  cases h with
  | finished => exact .finished b
  | loneTag hne htag => exact .loneTag hne htag
  | zeroTag hmarker hne htag => exact .zeroTag hmarker hne htag
  | unknown hmarker hne helmts => exact .unknown hmarker hne helmts
  | staleTag x hmarker hne hlast =>
      refine .staleTag x hmarker hne ?_
      rw [List.getLast?_cons, hlast]
      rfl

/-! ### What the code of a SEQUENCE has read -/

theorem readElements_unknown {elmtLen0 : ℕ} (hdef : elmtLen0 ≠ indefiniteLen) {fuel : ℕ}
    {tag : AsnTag} {b b₁ b' : AsnBuf} {n n₁ n' : ℕ} {extension : List (List Octet)}
    (htag : (bDecTag n).run b = .ok ((tag, n₁), b₁))
    (h : (AsnExtension.readElements elmtLen0 fuel tag n₁).run b₁ = .ok ((extension, n'), b')) :
    UnknownElmts elmtLen0 b n extension b' n' := by
  induction fuel generalizing tag b b₁ n n₁ extension with
  | zero => cases h
  | succ fuel ih =>
      rw [AsnExtension.readElements] at h
      obtain ⟨eoc, b₂, heoc, h⟩ := StreamCodec.run_bind_eq_ok h
      rw [AsnExtension.atEoc, if_neg hdef] at heoc
      obtain ⟨rfl, rfl⟩ := Prod.mk.inj (Except.ok.inj heoc)
      rw [if_neg Bool.false_ne_true] at h
      obtain ⟨⟨len, n₂⟩, b₂, hlen, h⟩ := StreamCodec.run_bind_eq_ok h
      dsimp only at h
      obtain ⟨⟨anyBuf, n₃⟩, b₃, hgrab, h⟩ := StreamCodec.run_bind_eq_ok h
      dsimp only at h
      have hhere : ReadsUnknown b n anyBuf b₃ n₃ := ⟨tag, n₁, b₁, len, n₂, b₂, htag, hlen, hgrab⟩
      by_cases hend : elmtLen0 ≤ n₃
      · rw [if_pos hend] at h
        obtain ⟨hr, rfl⟩ := Prod.mk.inj (Except.ok.inj h)
        obtain ⟨rfl, rfl⟩ := Prod.mk.inj hr
        exact .last hhere hend
      · rw [if_neg hend] at h
        obtain ⟨⟨tag', n₄⟩, b₄, htag', h⟩ := StreamCodec.run_bind_eq_ok h
        dsimp only at h
        obtain ⟨⟨extList, n₅⟩, b₅, hrest, h⟩ := StreamCodec.run_bind_eq_ok h
        obtain ⟨hr, rfl⟩ := Prod.mk.inj (Except.ok.inj h)
        obtain ⟨rfl, rfl⟩ := Prod.mk.inj hr
        exact .cons hhere (Nat.lt_of_not_le hend) (ih htag' hrest)

/-- The end of the contents, where the last tag has been read and not been used. -/
theorem bDecSequenceEnd_pending {marker : Bool} {elmtLen0 bytesDecoded : ℕ}
    (hdef : elmtLen0 ≠ indefiniteLen) {tag1 : AsnTag} {b b₁ b' : AsnBuf} {n n₁ m : ℕ}
    {obj : SequenceObject α} (hne : n ≠ elmtLen0) (htag : (bDecTag n).run b = .ok ((tag1, n₁), b₁))
    (h : (bDecSequenceEnd marker elmtLen0 bytesDecoded tag1 n₁ : BerM (SequenceObject α × ℕ)).run b₁ =
      .ok ((obj, m), b')) :
    obj.members = [] ∧ ∃ n', Tail marker elmtLen0 ([] : List (Option α)) b n obj.extension b' n' ∧
      m = bytesDecoded + n' := by
  rw [bDecSequenceEnd] at h
  cases marker with
  | true =>
      rw [if_pos rfl] at h
      obtain ⟨⟨extList, n'⟩, b₂, hread, h⟩ := StreamCodec.run_bind_eq_ok h
      obtain ⟨hr, rfl⟩ := Prod.mk.inj (Except.ok.inj h)
      obtain ⟨rfl, rfl⟩ := Prod.mk.inj hr
      refine ⟨rfl, n', ?_, rfl⟩
      change AsnExtension.readFromBuffer tag1 elmtLen0 n₁ b₁ = _ at hread
      rw [AsnExtension.readFromBuffer] at hread
      by_cases hend : n₁ = elmtLen0 ∨ tag1 = 0
      · rw [if_pos hend] at hread
        obtain ⟨hr, rfl⟩ := Prod.mk.inj (Except.ok.inj hread)
        obtain ⟨rfl, rfl⟩ := Prod.mk.inj hr
        rcases hend with rfl | rfl
        · exact .loneTag hne htag
        · exact .zeroTag rfl hne htag
      · rw [if_neg hend] at hread
        exact .unknown rfl hne (readElements_unknown hdef htag hread)
  | false =>
      rw [if_neg Bool.false_ne_true, if_neg hdef] at h
      by_cases hend : n₁ = elmtLen0
      · rw [if_neg (not_not_intro hend)] at h
        obtain ⟨hr, rfl⟩ := Prod.mk.inj (Except.ok.inj h)
        obtain ⟨rfl, rfl⟩ := Prod.mk.inj hr
        subst hend
        exact ⟨rfl, _, .loneTag hne htag, rfl⟩
      · rw [if_pos hend] at h
        cases h

/-- The end of the contents behind the last element of the type. -/
theorem bDecSequenceEnd_last {marker : Bool} {elmtLen0 bytesDecoded : ℕ}
    (hdef : elmtLen0 ≠ indefiniteLen) {tag1 : AsnTag} {b b' : AsnBuf} {n m : ℕ}
    {obj : SequenceObject α} (x : α)
    (h : (bDecSequenceEnd marker elmtLen0 bytesDecoded tag1 n : BerM (SequenceObject α × ℕ)).run b =
      .ok ((obj, m), b')) :
    obj.members = [] ∧ ∃ n', Tail marker elmtLen0 [some x] b n obj.extension b' n' ∧
      m = bytesDecoded + n' := by
  rw [bDecSequenceEnd] at h
  cases marker with
  | true =>
      rw [if_pos rfl] at h
      obtain ⟨⟨extList, n'⟩, b₂, hread, h⟩ := StreamCodec.run_bind_eq_ok h
      obtain ⟨hr, rfl⟩ := Prod.mk.inj (Except.ok.inj h)
      obtain ⟨rfl, rfl⟩ := Prod.mk.inj hr
      refine ⟨rfl, n', ?_, rfl⟩
      by_cases hend : n = elmtLen0
      · change AsnExtension.readFromBuffer tag1 elmtLen0 n b = _ at hread
        rw [AsnExtension.readFromBuffer, if_pos (.inl hend)] at hread
        obtain ⟨hr, rfl⟩ := Prod.mk.inj (Except.ok.inj hread)
        obtain ⟨rfl, rfl⟩ := Prod.mk.inj hr
        subst hend
        exact .finished b
      · exact .staleTag x rfl hend rfl
  | false =>
      rw [if_neg Bool.false_ne_true, if_neg hdef] at h
      by_cases hend : n = elmtLen0
      · rw [if_neg (not_not_intro hend)] at h
        obtain ⟨hr, rfl⟩ := Prod.mk.inj (Except.ok.inj h)
        obtain ⟨rfl, rfl⟩ := Prod.mk.inj hr
        subst hend
        exact ⟨rfl, _, .finished b, rfl⟩
      · rw [if_pos hend] at h
        cases h

theorem mayBeAbsent_of_isPtr {e : BerElmt α} (h : e.isPtr = true) : e.mayBeAbsent = true := by
  rw [BerElmt.mayBeAbsent]
  rw [BerElmt.isPtr] at h
  rw [h, Bool.true_or]

theorem isMandatory_of_mayBeAbsent {e : BerElmt α} (h : e.mayBeAbsent = true) :
    e.isMandatory = false := by
  rw [BerElmt.isMandatory, h, Bool.not_true, Bool.and_false]

/-- An element without its tag that is not complained about may be absent. -/
theorem isPtr_of_test {e : BerElmt α} {tag1 : AsnTag} (htest : e.test tag1 = false)
    (hrequired : e.required = false) : e.isPtr = true := by
  rw [BerElmt.required] at hrequired
  rw [BerElmt.test] at htest
  cases htags : e.tags with
  | nil =>
      rw [htags] at htest
      rw [Bool.or_eq_false_iff, Bool.not_eq_false'] at htest
      exact htest.1
  | cons tg tags =>
      rw [htags, List.isEmpty_cons, Bool.not_false, Bool.true_and] at hrequired
      rw [BerElmt.isPtr]
      cases ho : e.optional with
      | true => rfl
      | false =>
          rw [ho, Bool.not_false, Bool.true_and, Bool.not_eq_false'] at hrequired
          rw [hrequired]
          rfl

/-- Where the contents have ended every element is absent. -/
theorem inOrder_ended {elmtLen0 : ℕ} {elmts : List (BerElmt α)}
    (h : elmts.all BerElmt.mayBeAbsent = true) (b : AsnBuf) :
    InOrder elmtLen0 elmts b elmtLen0 (elmts.map fun _ => none) b elmtLen0 := by
  induction elmts with
  | nil => exact .nil b elmtLen0
  | cons e elmts ih =>
      have hall := h
      rw [List.all_cons, Bool.and_eq_true] at h
      exact .absent (isMandatory_of_mayBeAbsent h.1) (.inr (.inl ⟨rfl, hall⟩)) (ih h.2)

/-- What is known of the elements from one of them on. -/
structure Layout (marker : Bool) (elmts : List (BerElmt α)) : Prop where
  marked : ∀ e ∈ elmts, e.kind = .extension → marker = true ∧ e.extensionAddition = true
  additionsLast : AdditionsLast elmts

theorem Layout.tail {marker : Bool} {e : BerElmt α} {elmts : List (BerElmt α)}
    (h : Layout marker (e :: elmts)) : Layout marker elmts :=
  ⟨fun e' he => h.marked e' (List.mem_cons_of_mem _ he), h.additionsLast.of_cons⟩

theorem Layout.mayBeAbsent_of_addition {marker : Bool} {e : BerElmt α} {elmts : List (BerElmt α)}
    (h : Layout marker (e :: elmts)) (he : e.extensionAddition = true) :
    (e :: elmts).all BerElmt.mayBeAbsent = true := by
  rw [List.all_eq_true]
  intro e' he'
  have hadd : e'.extensionAddition = true := by
    rcases List.mem_cons.mp he' with rfl | he'
    · exact he
    · exact List.rel_of_pairwise_cons h.additionsLast he' he
  rw [BerElmt.mayBeAbsent, hadd, Bool.or_true]

/-- Behind a member either the contents have ended, or the next tag is read, or there is no
element left. -/
theorem bDecNext_cases {elmtLen0 : ℕ} (hdef : elmtLen0 ≠ indefiniteLen) {marker : Bool}
    {elmts : List (BerElmt α)} (hlayout : Layout marker elmts) {tag1 : AsnTag} {b b' : AsnBuf}
    {n : ℕ} {next : Next} (h : (bDecNext elmtLen0 elmts tag1 n).run b = .ok (next, b')) :
    (elmts = [] ∧ next = .goOn tag1 n ∧ b' = b) ∨
      (next = .finished elmtLen0 ∧ n = elmtLen0 ∧ b' = b ∧
        elmts.all BerElmt.mayBeAbsent = true) ∨
      ∃ tag n₁, next = .goOn tag n₁ ∧ (bDecTag n).run b = .ok ((tag, n₁), b') ∧
        ¬ Ended elmtLen0 elmts n := by
  cases elmts with
  | nil =>
      obtain ⟨rfl, rfl⟩ := Prod.mk.inj (Except.ok.inj h)
      exact .inl ⟨rfl, rfl, rfl⟩
  | cons e elmts =>
      right
      rw [bDecNext] at h
      by_cases hall : (e :: elmts).all BerElmt.mayBeAbsent = true
      · rw [if_pos hall, bDecValidateEnd] at h
        by_cases hn : n = elmtLen0
        · rw [if_pos hn] at h
          obtain ⟨rfl, rfl⟩ := Prod.mk.inj (Except.ok.inj h)
          subst hn
          exact .inl ⟨rfl, rfl, rfl, hall⟩
        · rw [if_neg hn] at h
          obtain ⟨⟨tag, n₁⟩, b₁, htag, h⟩ := StreamCodec.run_bind_eq_ok h
          dsimp only at h
          rw [if_neg fun hc => hdef hc.1] at h
          obtain ⟨rfl, rfl⟩ := Prod.mk.inj (Except.ok.inj h)
          exact .inr ⟨tag, n₁, rfl, htag, fun hc => hn hc.1⟩
      · have hroot : e.extensionAddition ≠ true := fun he =>
          hall (hlayout.mayBeAbsent_of_addition he)
        rw [if_neg hall, if_neg hroot] at h
        obtain ⟨⟨tag, n₁⟩, b₁, htag, h⟩ := StreamCodec.run_bind_eq_ok h
        obtain ⟨rfl, rfl⟩ := Prod.mk.inj (Except.ok.inj h)
        exact .inr ⟨tag, n₁, rfl, htag, fun hc => hall hc.2⟩

/-- The code from an element on, with a tag that has been read: what it accepts are members in
their order, and one of the ways to end. -/
theorem bDecElmts_inOrder {marker : Bool} {elmtLen0 bytesDecoded : ℕ}
    (hdef : elmtLen0 ≠ indefiniteLen) {elmts : List (BerElmt α)} (hlayout : Layout marker elmts)
    {tag1 : AsnTag} {b b₁ b' : AsnBuf} {n n₁ m : ℕ} {obj : SequenceObject α}
    (hgo : ¬ Ended elmtLen0 elmts n) (htag : (bDecTag n).run b = .ok ((tag1, n₁), b₁))
    (h : (bDecElmts marker elmtLen0 bytesDecoded elmts tag1 n₁).run b₁ = .ok ((obj, m), b')) :
    ∃ b₂ n₂ n', InOrder elmtLen0 elmts b n obj.members b₂ n₂ ∧
      Tail marker elmtLen0 obj.members b₂ n₂ obj.extension b' n' ∧ m = bytesDecoded + n' := by
  induction elmts generalizing tag1 b b₁ n n₁ m obj with
  | nil =>
      have hne : n ≠ elmtLen0 := fun hn => hgo ⟨hn, rfl⟩
      obtain ⟨hmembers, n', htail, hm⟩ := bDecSequenceEnd_pending hdef hne htag h
      rw [hmembers]
      exact ⟨b, n, n', .nil b n, htail, hm⟩
  | cons e elmts ih =>
      rw [bDecElmts] at h
      by_cases hkind : e.kind = .extension
      · rw [if_pos hkind] at h
        obtain ⟨⟨obj', m'⟩, b₂, hrest, h⟩ := StreamCodec.run_bind_eq_ok h
        obtain ⟨hr, rfl⟩ := Prod.mk.inj (Except.ok.inj h)
        obtain ⟨rfl, rfl⟩ := Prod.mk.inj hr
        have hadd := (hlayout.marked e List.mem_cons_self hkind).2
        have hall := hlayout.mayBeAbsent_of_addition hadd
        have hgo' : ¬ Ended elmtLen0 elmts n := fun hc => hgo ⟨hc.1, hall⟩
        obtain ⟨b₂, n₂, n', hin, htail, hm⟩ := ih hlayout.tail hgo' htag hrest
        have hmandatory : e.isMandatory = false := by
          rw [BerElmt.isMandatory, decide_eq_false (not_not_intro hkind), Bool.false_and]
        exact ⟨b₂, n₂, n', .absent hmandatory (.inl hkind) hin, htail.cons none, hm⟩
      · rw [if_neg hkind] at h
        cases htest : e.test tag1 with
        | true =>
            rw [htest, if_pos rfl] at h
            obtain ⟨⟨x, tag2, n₂⟩, b₂, hread, hrun⟩ := StreamCodec.run_bind_eq_ok h
            dsimp only at hrun
            obtain ⟨next, b₃, hnext, hafter⟩ := StreamCodec.run_bind_eq_ok hrun
            clear h hrun
            have hhere : e.ReadsAt b n x b₂ n₂ := ⟨tag1, n₁, b₁, tag2, htag, htest, hread⟩
            rcases bDecNext_cases hdef hlayout.tail hnext with
              ⟨rfl, rfl, rfl⟩ | ⟨rfl, rfl, rfl, hall⟩ | ⟨tag, n₃, rfl, htag', hgo'⟩
            · -- The type ends here, whatever is left.
              obtain ⟨⟨obj', m'⟩, b₄, hrest, hret⟩ := StreamCodec.run_bind_eq_ok hafter
              obtain ⟨hr, rfl⟩ := Prod.mk.inj (Except.ok.inj hret)
              obtain ⟨rfl, rfl⟩ := Prod.mk.inj hr
              obtain ⟨hmembers, n', htail, hm⟩ := bDecSequenceEnd_last hdef x hrest
              have hobj : (obj'.cons (some x)).members = [some x] := by
                rw [SequenceObject.cons, hmembers]
              rw [hobj]
              exact ⟨b₃, n₂, n', .present hkind hgo hhere (.nil b₃ n₂), htail, hm⟩
            · obtain ⟨hr, rfl⟩ := Prod.mk.inj (Except.ok.inj hafter)
              obtain ⟨rfl, rfl⟩ := Prod.mk.inj hr
              exact ⟨_, _, _, .present hkind hgo hhere (inOrder_ended hall _), .finished _, rfl⟩
            · obtain ⟨⟨obj', m'⟩, b₄, hrest, hret⟩ := StreamCodec.run_bind_eq_ok hafter
              obtain ⟨hr, rfl⟩ := Prod.mk.inj (Except.ok.inj hret)
              obtain ⟨rfl, rfl⟩ := Prod.mk.inj hr
              obtain ⟨b₅, n₅, n', hin, htail, hm⟩ := ih hlayout.tail hgo' htag' hrest
              exact ⟨b₅, n₅, n', .present hkind hgo hhere hin, htail.cons (some x), hm⟩
        | false =>
            rw [htest, if_neg Bool.false_ne_true] at h
            cases hrequired : e.required with
            | true =>
                rw [hrequired, if_pos rfl] at h
                cases h
            | false =>
                rw [hrequired, if_neg Bool.false_ne_true] at h
                obtain ⟨⟨obj', m'⟩, b₂, hrest, h⟩ := StreamCodec.run_bind_eq_ok h
                obtain ⟨hr, rfl⟩ := Prod.mk.inj (Except.ok.inj h)
                obtain ⟨rfl, rfl⟩ := Prod.mk.inj hr
                have hmay := mayBeAbsent_of_isPtr (isPtr_of_test htest hrequired)
                have hgo' : ¬ Ended elmtLen0 elmts n := fun hc =>
                  hgo ⟨hc.1, by rw [List.all_cons, hmay, hc.2]; rfl⟩
                obtain ⟨b₂, n₂, n', hin, htail, hm⟩ := ih hlayout.tail hgo' htag hrest
                exact ⟨b₂, n₂, n', .absent (isMandatory_of_mayBeAbsent hmay)
                  (.inr (.inr ⟨tag1, n₁, b₁, htag, htest⟩)) hin, htail.cons none, hm⟩

/-- Contents that the code of a SEQUENCE follows as they are meant. -/
structure SequenceFramed (elmts : List (BerElmt α)) (elmtLen0 : ℕ) (b : AsnBuf) : Prop where
  readsFirstTag : ReadsFirstTag elmts
  layout : Layout (elmts.any fun e => e.kind = .extension) elmts
  notEmpty : elmtLen0 = 0 → elmts.all BerElmt.mayBeAbsent = true
  counted : ∀ members b₁ n₁, InOrder elmtLen0 elmts b 0 members b₁ n₁ →
    b₁.past.length = b.past.length + n₁
  noLoneTag : ∀ members b₁ n₁, InOrder elmtLen0 elmts b 0 members b₁ n₁ → n₁ ≠ elmtLen0 →
    ∀ tag n₂ b₂, (bDecTag n₁).run b₁ = .ok ((tag, n₂), b₂) → n₂ ≠ elmtLen0 ∧
      ((elmts.any fun e => e.kind = .extension) = true → tag ≠ 0)
  whole : (elmts.any fun e => e.kind = .extension) = true → ∀ members b₁ n₁,
    InOrder elmtLen0 elmts b 0 members b₁ n₁ → n₁ ≠ elmtLen0 →
      (∀ x, members.getLast? ≠ some (some x)) ∧
        ∀ extension b₂ n₂, UnknownElmts elmtLen0 b₁ n₁ extension b₂ n₂ →
          n₂ = elmtLen0 ∧ b₂.past.length = b.past.length + elmtLen0

/-- A complete value was read: the members in their order, then what only an extensible type may
have, and the reader stands behind the contents. -/
structure CompleteSequence (elmts : List (BerElmt α)) (elmtLen0 : ℕ) (b : AsnBuf)
    (obj : SequenceObject α) (b' : AsnBuf) : Prop where
  inOrder : ∃ b₁ n₁, InOrder elmtLen0 elmts b 0 obj.members b₁ n₁ ∧
    ((b₁ = b' ∧ n₁ = elmtLen0 ∧ obj.extension = []) ∨
      ((∃ e ∈ elmts, e.kind = .extension) ∧
        UnknownElmts elmtLen0 b₁ n₁ obj.extension b' elmtLen0))
  mandatory : List.Forall₂ (fun e o => e.isMandatory = true → o.isSome = true) elmts obj.members
  consumed : b'.past.length = b.past.length + elmtLen0

theorem InOrder.mandatory {elmtLen0 : ℕ} {elmts : List (BerElmt α)} {b b' : AsnBuf} {n n' : ℕ}
    {members : List (Option α)} (h : InOrder elmtLen0 elmts b n members b' n') :
    List.Forall₂ (fun e o => e.isMandatory = true → o.isSome = true) elmts members := by
  induction h with
  | nil => exact .nil
  | absent hmandatory _ _ ih => exact .cons (fun h => by rw [hmandatory] at h; cases h) ih
  | present _ _ _ _ ih => exact .cons (fun _ => rfl) ih

/-- What the decoder of a SEQUENCE has accepted. -/
theorem bDecSequence_inOrder {elmts : List (BerElmt α)} {elmtLen0 : ℕ}
    (hdef : elmtLen0 ≠ indefiniteLen) {b b' : AsnBuf} (hframed : SequenceFramed elmts elmtLen0 b)
    {bytesDecoded m : ℕ} {obj : SequenceObject α}
    (h : (bDecSequence elmts elmtLen0 bytesDecoded).run b = .ok ((obj, m), b')) :
    ∃ b₁ n₁ n', InOrder elmtLen0 elmts b 0 obj.members b₁ n₁ ∧
      Tail (elmts.any fun e => e.kind = .extension) elmtLen0 obj.members b₁ n₁ obj.extension b' n' ∧
      m = bytesDecoded + n' := by
  have hempty : ∀ {c : AsnBuf}, elmtLen0 = 0 →
      (pure (SequenceObject.clear elmts, bytesDecoded) : BerM (SequenceObject α × ℕ)).run c =
        .ok ((obj, m), b') → ∃ b₁ n₁ n', InOrder elmtLen0 elmts c 0 obj.members b₁ n₁ ∧
        Tail (elmts.any fun e => e.kind = .extension) elmtLen0 obj.members b₁ n₁ obj.extension b' n' ∧
        m = bytesDecoded + n' := by
    intro c hzero hrun
    obtain ⟨hr, rfl⟩ := Prod.mk.inj (Except.ok.inj hrun)
    obtain ⟨rfl, rfl⟩ := Prod.mk.inj hr
    have hin := @inOrder_ended α elmtLen0 _ (hframed.notEmpty hzero) c
    subst hzero
    exact ⟨c, 0, 0, hin, .finished c, rfl⟩
  cases elmts with
  | nil =>
      rw [bDecSequence, if_neg hdef] at h
      by_cases hzero : elmtLen0 = 0
      · rw [if_neg (not_not_intro hzero)] at h
        exact hempty hzero h
      · rw [if_pos hzero] at h
        cases h
  | cons e elmts =>
      obtain ⟨hany, hadd⟩ := hframed.readsFirstTag e rfl
      rw [bDecSequence] at h
      dsimp only at h
      rw [hany, hadd, if_neg Bool.false_ne_true] at h
      by_cases hzero : elmtLen0 = 0
      · refine hempty hzero ?_
        rw [if_pos hzero, if_pos hzero] at h
        by_cases hall : (e :: elmts).all BerElmt.isPtr = true
        · rwa [if_pos hall] at h
        · rwa [if_neg hall, Bool.or_self, if_neg Bool.false_ne_true] at h
      · have hgo : ¬ Ended elmtLen0 (e :: elmts) 0 := fun hc => hzero hc.1.symm
        rw [if_neg hzero, if_neg hzero] at h
        by_cases hall : (e :: elmts).all BerElmt.isPtr = true
        · rw [if_pos hall] at h
          obtain ⟨⟨tag1, n₁⟩, b₁, htag, h⟩ := StreamCodec.run_bind_eq_ok h
          dsimp only at h
          rw [if_neg fun hc => hdef hc.1] at h
          exact bDecElmts_inOrder hdef hframed.layout hgo htag h
        · rw [if_neg hall, Bool.or_self, if_neg Bool.false_ne_true] at h
          obtain ⟨⟨tag1, n₁⟩, b₁, htag, h⟩ := StreamCodec.run_bind_eq_ok h
          exact bDecElmts_inOrder hdef hframed.layout hgo htag h

theorem bDecSequence_complete {elmts : List (BerElmt α)} {elmtLen0 : ℕ}
    (hdef : elmtLen0 ≠ indefiniteLen) {b b' : AsnBuf} (hframed : SequenceFramed elmts elmtLen0 b)
    {bytesDecoded m : ℕ} {obj : SequenceObject α}
    (h : (bDecSequence elmts elmtLen0 bytesDecoded).run b = .ok ((obj, m), b')) :
    CompleteSequence elmts elmtLen0 b obj b' ∧ m = bytesDecoded + elmtLen0 := by
  obtain ⟨b₁, n₁, n', hin, htail, rfl⟩ := bDecSequence_inOrder hdef hframed h
  generalize hextension : obj.extension = extension at htail
  cases htail with
  | finished =>
      exact ⟨⟨⟨_, _, hin, .inl ⟨rfl, rfl, hextension⟩⟩, hin.mandatory,
        hframed.counted _ _ _ hin⟩, rfl⟩
  | loneTag hne htag => exact absurd rfl (hframed.noLoneTag _ _ _ hin hne _ _ _ htag).1
  | zeroTag hmarker hne htag =>
      exact absurd rfl ((hframed.noLoneTag _ _ _ hin hne _ _ _ htag).2 hmarker)
  | unknown hmarker hne helmts =>
      obtain ⟨rfl, hpos⟩ := (hframed.whole hmarker _ _ _ hin hne).2 _ _ _ helmts
      rw [← hextension] at helmts
      obtain ⟨e, he, hkind⟩ := List.any_eq_true.mp hmarker
      exact ⟨⟨⟨b₁, n₁, hin, .inr ⟨⟨e, he, of_decide_eq_true hkind⟩, helmts⟩⟩, hin.mandatory, hpos⟩,
        rfl⟩
  | staleTag x hmarker hne hlast =>
      exact absurd hlast ((hframed.whole hmarker _ _ _ hin hne).1 _)

/-! ### What the loop of a SET has read -/

/-- Encodings one after the other while the count stays below the length: each with the index of
the element that takes it, or without one if it is unknown, in which case its header is counted
twice. -/
inductive AnyOrder (elmts : List (BerElmt α)) (elmtLen0 : ℕ) :
    AsnBuf → ℕ → List (Option ℕ) → AsnBuf → ℕ → Prop
  | nil (b : AsnBuf) (n : ℕ) : AnyOrder elmts elmtLen0 b n [] b n
  | known {b b₁ b₂ b' : AsnBuf} {n n₁ n₂ n' i : ℕ} {tag1 tag2 : AsnTag} {e : BerElmt α} {x : α}
      {found : List (Option ℕ)} (hgo : n < elmtLen0)
      (htag : (bDecTag n).run b = .ok ((tag1, n₁), b₁)) (hcase : findCase tag1 elmts 0 = some (i, e))
      (hread : (e.inSet.bDecElmt tag1 n₁).run b₁ = .ok ((x, tag2, n₂), b₂))
      (hrest : AnyOrder elmts elmtLen0 b₂ n₂ found b' n') :
      AnyOrder elmts elmtLen0 b n (some i :: found) b' n'
  | unknown {b b₁ b₂ b₃ b' : AsnBuf} {n n₁ n₂ n₃ n' len : ℕ} {tag1 : AsnTag} {extAny : List Octet}
      {found : List (Option ℕ)} (hgo : n < elmtLen0)
      (hmarker : (elmts.any fun e => e.kind = .extension) = true)
      (htag : (bDecTag n).run b = .ok ((tag1, n₁), b₁)) (hcase : findCase tag1 elmts 0 = none)
      (hlen : (bDecLen n₁).run b₁ = .ok ((len, n₂), b₂))
      (hread : (AsnAny.bDec n₂).run (b₂.seek b.past.length) = .ok ((extAny, n₃), b₃))
      (hrest : AnyOrder elmts elmtLen0 b₃ n₃ found b' n') :
      AnyOrder elmts elmtLen0 b n (none :: found) b' n'

/-- The indices of the elements that have to occur. -/
def mandatoryIndices (elmts : List (BerElmt α)) : List ℕ :=
  (elmts.zipIdx.filter fun p => p.1.isMandatory).map Prod.snd

theorem length_mandatoryIndices (elmts : List (BerElmt α)) :
    (mandatoryIndices elmts).length = mandatoryElmtCount elmts := by
  have hfst : elmts.zipIdx.map Prod.fst = elmts := List.zipIdx_map_fst 0 elmts
  have hfilter : elmts.filter BerElmt.isMandatory =
      (elmts.zipIdx.filter fun p => p.1.isMandatory).map Prod.fst := by
    conv_lhs => rw [← hfst, List.filter_map]
    rfl
  have hcount : mandatoryElmtCount elmts = (elmts.filter BerElmt.isMandatory).length := rfl
  rw [hcount, hfilter, mandatoryIndices, List.length_map, List.length_map]

theorem mem_mandatoryIndices {elmts : List (BerElmt α)} {i : ℕ} :
    i ∈ mandatoryIndices elmts ↔ ∃ e, elmts[i]? = some e ∧ e.isMandatory = true := by
  simp only [mandatoryIndices, List.mem_map, List.mem_filter, Prod.exists, exists_eq_right,
    List.mem_zipIdx_iff_getElem?]

/-- The element of a branch, at its index. -/
theorem findCase_get {tag1 : AsnTag} {elmts : List (BerElmt α)} {k i : ℕ} {e : BerElmt α}
    (h : findCase tag1 elmts k = some (i, e)) :
    k ≤ i ∧ elmts[i - k]? = some e ∧ e.kind ≠ .extension := by
  induction elmts generalizing k with
  | nil => cases h
  | cons e' elmts ih =>
      rw [findCase] at h
      by_cases hcase : e'.hasCase tag1 = true
      · rw [if_pos hcase] at h
        obtain ⟨rfl, rfl⟩ := Prod.mk.inj (Option.some.inj h)
        refine ⟨Nat.le_refl _, by rw [Nat.sub_self]; rfl, ?_⟩
        rw [BerElmt.hasCase, Bool.and_eq_true, Bool.and_eq_true, decide_eq_true_eq] at hcase
        exact hcase.1.1
      · rw [if_neg hcase] at h
        obtain ⟨hle, hget, hkind⟩ := ih h
        refine ⟨Nat.le_of_succ_le hle, ?_, hkind⟩
        rw [show i - k = i - (k + 1) + 1 by omega]
        exact hget

theorem findCase_mandatory {tag1 : AsnTag} {elmts : List (BerElmt α)} {i : ℕ} {e : BerElmt α}
    (h : findCase tag1 elmts 0 = some (i, e)) :
    (i ∈ mandatoryIndices elmts) ↔ e.mayBeAbsent = false := by
  obtain ⟨-, hget, hkind⟩ := findCase_get h
  rw [Nat.sub_zero] at hget
  rw [mem_mandatoryIndices, hget]
  constructor
  · rintro ⟨e', he', hmandatory⟩
    obtain rfl := Option.some.inj he'
    rw [BerElmt.isMandatory, Bool.and_eq_true, Bool.not_eq_true'] at hmandatory
    exact hmandatory.2
  · intro hmay
    refine ⟨e, rfl, ?_⟩
    rw [BerElmt.isMandatory, decide_eq_true hkind, hmay]
    rfl

/-- How often an element that has to occur was found. -/
def mandatoryFound (elmts : List (BerElmt α)) (found : List (Option ℕ)) : List ℕ :=
  (found.filterMap id).filter fun i => i ∈ mandatoryIndices elmts

theorem mandatoryFound_cons (elmts : List (BerElmt α)) (i : ℕ) (found : List (Option ℕ)) :
    mandatoryFound elmts (some i :: found) =
      if i ∈ mandatoryIndices elmts then i :: mandatoryFound elmts found
      else mandatoryFound elmts found := by
  have hcons : (some i :: found).filterMap id = i :: found.filterMap id := rfl
  rw [mandatoryFound, mandatoryFound, hcons, List.filter_cons]
  simp only [decide_eq_true_eq]

theorem bDecSetLoop_anyOrder {elmts : List (BerElmt α)} {elmtLen0 : ℕ}
    (hdef : elmtLen0 ≠ indefiniteLen) {fuel : ℕ} {s s' : SetState α} {b b' : AsnBuf} {n n' : ℕ}
    (h : (bDecSetLoop elmts elmtLen0 fuel s n).run b = .ok ((s', n'), b')) :
    ∃ found, AnyOrder elmts elmtLen0 b n found b' n' ∧ elmtLen0 ≤ n' ∧
      s'.mandatoryElmtsDecoded = s.mandatoryElmtsDecoded + (mandatoryFound elmts found).length := by
  induction fuel generalizing s b n with
  | zero => cases h
  | succ fuel ih =>
      rw [bDecSetLoop] at h
      by_cases hgo : n < elmtLen0
      · rw [if_pos (.inl hgo)] at h
        obtain ⟨readLoc, b₀, hloc, h⟩ := StreamCodec.run_bind_eq_ok h
        obtain ⟨rfl, rfl⟩ := Prod.mk.inj (Except.ok.inj hloc)
        obtain ⟨⟨tag1, n₁⟩, b₁, htag, h⟩ := StreamCodec.run_bind_eq_ok h
        dsimp only at h
        rw [if_neg fun hc => hdef hc.1] at h
        cases hcase : findCase tag1 elmts 0 with
        | some ie =>
            obtain ⟨i, e⟩ := ie
            rw [hcase] at h
            dsimp only at h
            obtain ⟨⟨x, tag2, n₂⟩, b₂, hread, h⟩ := StreamCodec.run_bind_eq_ok h
            obtain ⟨found, horder, hle, hcount⟩ := ih h
            refine ⟨some i :: found, .known hgo htag hcase hread horder, hle, ?_⟩
            rw [hcount, SetState.put, mandatoryFound_cons]
            cases hmay : e.mayBeAbsent with
            | true =>
                have hnot : i ∉ mandatoryIndices elmts := fun hi => by
                  rw [(findCase_mandatory hcase).mp hi] at hmay
                  cases hmay
                rw [if_neg hnot]
                rfl
            | false =>
                have hmem := (findCase_mandatory hcase).mpr hmay
                rw [if_pos hmem, List.length_cons]
                dsimp only
                rw [if_neg Bool.false_ne_true]
                omega
        | none =>
            rw [hcase] at h
            dsimp only at h
            obtain ⟨⟨len, n₂⟩, b₂, hlen, h⟩ := StreamCodec.run_bind_eq_ok h
            dsimp only at h
            by_cases hmarker : (elmts.any fun e => e.kind = .extension) = true
            · rw [if_pos hmarker] at h
              obtain ⟨u, b₃, hloc, h⟩ := StreamCodec.run_bind_eq_ok h
              obtain ⟨-, rfl⟩ := Prod.mk.inj (Except.ok.inj hloc)
              obtain ⟨⟨extAny, n₃⟩, b₃, hread, h⟩ := StreamCodec.run_bind_eq_ok h
              obtain ⟨found, horder, hle, hcount⟩ := ih h
              exact ⟨none :: found, .unknown hgo hmarker htag hcase hlen hread horder, hle, hcount⟩
            · rw [if_neg hmarker] at h
              cases h
      · have hend : ¬ (n < elmtLen0 ∨ elmtLen0 = indefiniteLen) := fun hc => hc.elim hgo hdef
        rw [if_neg hend] at h
        obtain ⟨hr, rfl⟩ := Prod.mk.inj (Except.ok.inj h)
        obtain ⟨rfl, rfl⟩ := Prod.mk.inj hr
        exact ⟨[], .nil b n, Nat.le_of_not_lt hgo, rfl⟩

/-- Contents that the loop of a SET follows as they are meant. -/
structure SetFramed (elmts : List (BerElmt α)) (elmtLen0 : ℕ) (b : AsnBuf) : Prop where
  once : ∀ found b' n', AnyOrder elmts elmtLen0 b 0 found b' n' → (found.filterMap id).Nodup
  counted : ∀ found b' n', AnyOrder elmts elmtLen0 b 0 found b' n' →
    b'.past.length = b.past.length + n'
  inside : ∀ found b' n', AnyOrder elmts elmtLen0 b 0 found b' n' → n' ≤ elmtLen0

/-- A complete value was read: each element that has to occur was found, none was found twice,
and the reader stands behind the contents. -/
structure CompleteSet (elmts : List (BerElmt α)) (elmtLen0 : ℕ) (b b' : AsnBuf) : Prop where
  anyOrder : ∃ found, AnyOrder elmts elmtLen0 b 0 found b' elmtLen0 ∧ (found.filterMap id).Nodup ∧
    (∀ i e, elmts[i]? = some e → e.isMandatory = true → some i ∈ found) ∧
      (none ∈ found → ∃ e ∈ elmts, e.kind = .extension)
  consumed : b'.past.length = b.past.length + elmtLen0

theorem AnyOrder.marker {elmts : List (BerElmt α)} {elmtLen0 : ℕ} {b b' : AsnBuf} {n n' : ℕ}
    {found : List (Option ℕ)} (h : AnyOrder elmts elmtLen0 b n found b' n') (hnone : none ∈ found) :
    ∃ e ∈ elmts, e.kind = .extension := by
  induction h with
  | nil => cases hnone
  | known _ _ _ _ _ ih =>
      rcases List.mem_cons.mp hnone with hc | hmem
      · cases hc
      · exact ih hmem
  | unknown _ hmarker =>
      obtain ⟨e, he, hkind⟩ := List.any_eq_true.mp hmarker
      exact ⟨e, he, of_decide_eq_true hkind⟩

/-- As many mandatory elements as the type has, none of them twice, are all of them. -/
theorem mem_found_of_count {elmts : List (BerElmt α)} {found : List (Option ℕ)}
    (hnodup : (found.filterMap id).Nodup)
    (hcount : mandatoryElmtCount elmts ≤ (mandatoryFound elmts found).length) {i : ℕ}
    (hi : i ∈ mandatoryIndices elmts) : some i ∈ found := by
  have hsub : mandatoryFound elmts found ⊆ mandatoryIndices elmts := fun j hj =>
    of_decide_eq_true (List.mem_filter.mp hj).2
  have hperm : (mandatoryFound elmts found).Perm (mandatoryIndices elmts) :=
    ((hnodup.filter _).subperm hsub).perm_of_length_le
      (by rw [length_mandatoryIndices]; exact hcount)
  have hmem := List.mem_of_mem_filter (hperm.symm.subset hi)
  obtain ⟨o, ho, hoi⟩ := List.mem_filterMap.mp hmem
  have hsome : o = some i := hoi
  rwa [← hsome]

theorem bDecSet_complete {elmts : List (BerElmt α)} {elmtLen0 : ℕ}
    (hdef : elmtLen0 ≠ indefiniteLen) {b b' : AsnBuf} (hframed : SetFramed elmts elmtLen0 b)
    {bytesDecoded m : ℕ} {obj : SequenceObject α}
    (h : (bDecSet elmts elmtLen0 bytesDecoded).run b = .ok ((obj, m), b')) :
    CompleteSet elmts elmtLen0 b b' ∧ m = bytesDecoded + elmtLen0 := by
  have hrun : (if elmts.isEmpty = true then
      (if elmtLen0 = indefiniteLen then _ else
        if elmtLen0 ≠ 0 then _ else _ : BerM (SequenceObject α × ℕ)) else _).run b =
      .ok ((obj, m), b') := h
  cases elmts with
  | nil =>
      rw [List.isEmpty_nil, if_pos rfl, if_neg hdef] at hrun
      by_cases hzero : elmtLen0 = 0
      · rw [if_neg (not_not_intro hzero)] at hrun
        obtain ⟨hr, rfl⟩ := Prod.mk.inj (Except.ok.inj hrun)
        obtain ⟨rfl, rfl⟩ := Prod.mk.inj hr
        subst hzero
        refine ⟨⟨⟨[], .nil b 0, List.nodup_nil, fun i e he => ?_, fun hc => ?_⟩, rfl⟩, rfl⟩
        · rw [List.getElem?_nil] at he
          cases he
        · cases hc
      · rw [if_pos hzero] at hrun
        cases hrun
  | cons e elmts =>
      rw [List.isEmpty_cons, if_neg Bool.false_ne_true] at hrun
      obtain ⟨⟨s, n'⟩, b₁, hloop, hrun⟩ := StreamCodec.run_bind_eq_ok hrun
      dsimp only at hrun
      by_cases hmissing : s.mandatoryElmtsDecoded < mandatoryElmtCount (e :: elmts)
      · rw [if_pos hmissing] at hrun
        cases hrun
      · rw [if_neg hmissing] at hrun
        obtain ⟨hr, rfl⟩ := Prod.mk.inj (Except.ok.inj hrun)
        obtain ⟨rfl, rfl⟩ := Prod.mk.inj hr
        obtain ⟨found, horder, hle, hcount⟩ := bDecSetLoop_anyOrder hdef hloop
        rw [Nat.zero_add] at hcount
        obtain rfl : n' = elmtLen0 := Nat.le_antisymm (hframed.inside _ _ _ horder) hle
        have hnodup := hframed.once _ _ _ horder
        refine ⟨⟨⟨found, horder, hnodup, fun i e' he hmandatory => ?_, horder.marker⟩,
          hframed.counted _ _ _ horder⟩, rfl⟩
        refine mem_found_of_count hnodup ?_ (mem_mandatoryIndices.mpr ⟨e', he, hmandatory⟩)
        rw [← hcount]
        exact Nat.le_of_not_lt hmissing

/-- TRUE under the tag `[0]`, and nothing else. -/
def trueContents : AsnBuf := ⟨[], [0x80, 0x01, 0xFF]⟩

theorem inOrder_trueContents {members : List (Option (List Octet))} {b' : AsnBuf} {n' : ℕ}
    (h : InOrder 3 [booleanElmt 0 false] trueContents 0 members b' n') :
    b' = ⟨[0xFF, 0x01, 0x80], []⟩ ∧ n' = 3 := by
  cases h with
  | absent hmandatory =>
      have htrue : (booleanElmt 0 false).isMandatory = true := rfl
      rw [htrue] at hmandatory
      cases hmandatory
  | present hkind hgo hhere hrest =>
      cases hrest
      obtain ⟨tag1, n₁, b₁, tag2, htag, -, hread⟩ := hhere
      have htag' : (bDecTag 0).run trueContents =
          .ok ((tagOf [0x80], 1), ⟨[0x80], [0x01, 0xFF]⟩) := rfl
      obtain ⟨hr, rfl⟩ := Prod.mk.inj (Except.ok.inj (htag'.symm.trans htag))
      obtain ⟨rfl, rfl⟩ := Prod.mk.inj hr
      have hread' : ((booleanElmt 0 false).bDecElmt (tagOf [0x80]) 1).run ⟨[0x80], [0x01, 0xFF]⟩ =
          .ok (([0xFF], tagOf [0x80], 3), ⟨[0xFF, 0x01, 0x80], []⟩) := rfl
      obtain ⟨hr, rfl⟩ := Prod.mk.inj (Except.ok.inj (hread'.symm.trans hread))
      exact ⟨rfl, congrArg (fun r => r.2.2) hr.symm⟩

theorem anyOrder_trueContents {found : List (Option ℕ)} {b' : AsnBuf} {n' : ℕ}
    (h : AnyOrder [booleanElmt 0 false] 3 trueContents 0 found b' n') :
    (found.filterMap id).Nodup ∧ b'.past.length = n' ∧ n' ≤ 3 := by
  cases h with
  | nil => exact ⟨List.nodup_nil, rfl, Nat.zero_le _⟩
  | unknown hgo hmarker => cases hmarker
  | known hgo htag hcase hread hrest =>
      have htag' : (bDecTag 0).run trueContents =
          .ok ((tagOf [0x80], 1), ⟨[0x80], [0x01, 0xFF]⟩) := rfl
      obtain ⟨hr, rfl⟩ := Prod.mk.inj (Except.ok.inj (htag'.symm.trans htag))
      obtain ⟨rfl, rfl⟩ := Prod.mk.inj hr
      have hcase' : findCase (tagOf [0x80]) [booleanElmt 0 false] 0 =
          some (0, booleanElmt 0 false) := rfl
      obtain ⟨rfl, rfl⟩ := Prod.mk.inj (Option.some.inj (hcase'.symm.trans hcase))
      have hread' : ((booleanElmt 0 false).inSet.bDecElmt (tagOf [0x80]) 1).run
          ⟨[0x80], [0x01, 0xFF]⟩ =
          .ok (([0xFF], tagOf [0x80], 3), ⟨[0xFF, 0x01, 0x80], []⟩) := rfl
      obtain ⟨hr, rfl⟩ := Prod.mk.inj (Except.ok.inj (hread'.symm.trans hread))
      obtain rfl := congrArg (fun r => r.2.2) hr
      cases hrest with
      | nil => exact ⟨List.nodup_singleton 0, rfl, Nat.le_refl 3⟩
      | known hgo => exact absurd hgo (Nat.lt_irrefl 3)
      | unknown hgo => exact absurd hgo (Nat.lt_irrefl 3)

theorem sequenceFramed_trueContents : SequenceFramed [booleanElmt 0 false] 3 trueContents where
  readsFirstTag := regular_booleanElmt.readsFirstTag
  layout := by
    refine ⟨fun e he hkind => ?_, regular_booleanElmt.additionsLast⟩
    obtain rfl := List.mem_singleton.mp he
    cases hkind
  notEmpty hzero := absurd hzero (by decide)
  counted members b₁ n₁ h := by
    obtain ⟨rfl, rfl⟩ := inOrder_trueContents h
    rfl
  noLoneTag members b₁ n₁ h hne := absurd (inOrder_trueContents h).2 hne
  whole hmarker := by cases hmarker

theorem setFramed_trueContents : SetFramed [booleanElmt 0 false] 3 trueContents where
  once found b' n' h := (anyOrder_trueContents h).1
  counted found b' n' h := by
    rw [(anyOrder_trueContents h).2.1]
    exact (Nat.zero_add n').symm
  inside found b' n' h := (anyOrder_trueContents h).2.2

end Esnacc.Generated
