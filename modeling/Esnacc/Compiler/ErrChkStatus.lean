import Esnacc.Compiler.ErrChk

/-!
What the checks of `ErrChkModule` record, and when that is what the rules say.
-/

namespace Esnacc.Compiler

namespace CheckedModule

open Relation TypeGraph

variable {ι κ : Type} {m : CheckedModule ι κ}

/-! ### Leading tags -/

theorem leads_of_tag {t : ι} {tag : Tag} (h : m.graph.HasFront t (.tag tag)) {x : Tag} :
    m.Leads t x ↔ x = tag := by
  constructor
  · intro hx
    cases hx with
    | tag h' => exact (Front.tag.inj (h.unique h')).symm
    | choice h' => cases h.unique h'
  · rintro rfl
    exact .tag h

theorem not_leads_of_bare {t : ι} (h : m.graph.HasFront t .bare) {x : Tag} : ¬ m.Leads t x := by
  intro hx
  cases hx with
  | tag h' => cases h.unique h'
  | choice h' => cases h.unique h'

theorem leads_of_choice {t : ι} {elmts : List ι} (h : m.graph.HasFront t (.choice elmts))
    {x : Tag} : m.Leads t x ↔ ∃ e ∈ elmts, m.Leads e x := by
  constructor
  · intro hx
    cases hx with
    | tag h' => cases h.unique h'
    | choice h' he htag =>
        cases h.unique h'
        exact ⟨_, he, htag⟩
  · rintro ⟨e, he, htag⟩
    exact .choice h he htag

theorem separate_of_choice {t : ι} {elmts : List ι} (h : m.graph.HasFront t (.choice elmts)) :
    m.Separate t ↔ m.AllSeparate elmts := by
  constructor
  · intro hs
    cases hs with
    | tag h' => cases h.unique h'
    | bare h' => cases h.unique h'
    | choice h' hapart hall =>
        cases h.unique h'
        exact ⟨hapart, hall⟩
  · rintro ⟨hapart, hall⟩
    exact .choice h hapart hall

/-! ### Adding first tags -/

/-- None of the leading tags of the type is defined. -/
def Undefined (m : CheckedModule ι κ) (definedTags : List Tag) (t : ι) : Prop :=
  ∀ x ∈ definedTags, ∀ y, m.Leads t y → tagObjCmp x y = false

/-- What a visit of `AddFirstTag` finds: it goes through if the leading tags are new and
separate, and then they have been defined. -/
structure Adds (m : CheckedModule ι κ) (definedTags : List Tag) (t : ι)
    (r : Except (List Tag) (List Tag)) : Prop where
  ok : ∀ definedTags', r = .ok definedTags' → m.Undefined definedTags t ∧ m.Separate t ∧
    ∀ x, x ∈ definedTags' ↔ x ∈ definedTags ∨ m.Leads t x
  error : ∀ e, r = .error e → ¬ (m.Undefined definedTags t ∧ m.Separate t)

/-- The same for the elements of a list. -/
structure AddsAll (m : CheckedModule ι κ) (definedTags : List Tag) (elmts : List ι)
    (r : Except (List Tag) (List Tag)) : Prop where
  ok : ∀ definedTags', r = .ok definedTags' → (∀ e ∈ elmts, m.Undefined definedTags e) ∧
    m.AllSeparate elmts ∧ ∀ x, x ∈ definedTags' ↔ x ∈ definedTags ∨ ∃ e ∈ elmts, m.Leads e x
  error : ∀ e, r = .error e →
    ¬ ((∀ e ∈ elmts, m.Undefined definedTags e) ∧ m.AllSeparate elmts)

/-- What is undefined after a visit is apart from what has been visited. -/
theorem undefined_after_iff (m : CheckedModule ι κ) (es : List ι) {definedTags d : List Tag}
    {e : ι} (hmem : ∀ x, x ∈ d ↔ x ∈ definedTags ∨ m.Leads e x) :
    (∀ a ∈ es, m.Undefined d a) ↔
      (∀ a ∈ es, m.Undefined definedTags a) ∧ ∀ a ∈ es, m.Apart tagObjCmp e a := by
  constructor
  · intro hd
    refine ⟨fun a ha x hx => hd a ha x ((hmem x).2 (.inl hx)), ?_⟩
    exact fun a ha x y hx hy => hd a ha x ((hmem x).2 (.inr hx)) y hy
  · rintro ⟨hd, hapart⟩ a ha x hx y hy
    rcases (hmem x).1 hx with hx | hx
    · exact hd a ha x hx y hy
    · exact hapart a ha x y hx hy

theorem addsAll_of_adds {visit : List Tag → ι → Option (Except (List Tag) (List Tag))}
    (h : ∀ definedTags t r, visit definedTags t = some r → m.Adds definedTags t r)
    {elmts : List ι} {definedTags : List Tag} {r : Except (List Tag) (List Tag)}
    (hr : Walk.forEach visit elmts definedTags = some r) : m.AddsAll definedTags elmts r := by
  induction elmts generalizing definedTags with
  | nil =>
      cases hr
      refine ⟨?_, fun e he => (by cases he)⟩
      intro definedTags' heq
      cases heq
      exact ⟨by simp, ⟨.nil, by simp⟩, by simp⟩
  | cons e es ih =>
      rw [Walk.forEach] at hr
      cases hv : visit definedTags e with
      | none => simp [hv] at hr
      | some q =>
          have hadds := h definedTags e q hv
          rw [hv] at hr
          cases q with
          | error d =>
              cases hr
              refine ⟨fun _ heq => (by cases heq), ?_⟩
              rintro _ - ⟨hundef, -, hsep⟩
              exact hadds.error d rfl ⟨hundef e (by simp), hsep e (by simp)⟩
          | ok d =>
              obtain ⟨hundef, hsep, hmem⟩ := hadds.ok d rfl
              have hrest := ih hr
              have hiff := m.undefined_after_iff es hmem
              constructor
              · intro definedTags' heq
                obtain ⟨hund, ⟨hpair, hseps⟩, hmem'⟩ := hrest.ok definedTags' heq
                obtain ⟨hund', hapart⟩ := hiff.1 hund
                refine ⟨by simpa using ⟨hundef, hund'⟩, ⟨?_, by simpa using ⟨hsep, hseps⟩⟩, ?_⟩
                · exact List.pairwise_cons.2 ⟨hapart, hpair⟩
                · intro x
                  rw [hmem', hmem]
                  simp [or_assoc]
              · rintro f heq ⟨hund, hpair, hseps⟩
                rw [List.pairwise_cons] at hpair
                refine hrest.error f heq ⟨hiff.2 ⟨?_, hpair.1⟩, hpair.2, ?_⟩
                · exact fun a ha => hund a (List.mem_cons_of_mem _ ha)
                · exact fun a ha => hseps a (List.mem_cons_of_mem _ ha)

theorem adds_of_addFirstTag {n : ℕ} {definedTags : List Tag} {t : ι}
    {r : Except (List Tag) (List Tag)} (h : m.graph.addFirstTag n definedTags t = some r) :
    m.Adds definedTags t r := by
  induction n generalizing definedTags t r with
  | zero => simp [addFirstTag] at h
  | succ n ih =>
      obtain ⟨k, front, hk, hf, hfront⟩ := exists_hasFront h
      cases hk
      rw [addFirstTag_eq, hf] at h
      cases front with
      | bare =>
          cases h
          refine ⟨?_, fun e he => (by cases he)⟩
          intro definedTags' heq
          cases heq
          refine ⟨fun x _ y hy => absurd hy (not_leads_of_bare hfront), .bare hfront, ?_⟩
          simp [not_leads_of_bare hfront]
      | tag tag =>
          have hdef : isDefined definedTags tag = true ↔ ¬ m.Undefined definedTags t := by
            simp [isDefined, Undefined, leads_of_tag hfront]
          dsimp only at h
          split at h
          · next hd =>
              cases h
              refine ⟨fun _ heq => (by cases heq), ?_⟩
              exact fun _ _ hno => hdef.1 hd hno.1
          · next hd =>
              cases h
              refine ⟨?_, fun e he => (by cases he)⟩
              intro definedTags' heq
              cases heq
              refine ⟨not_not.1 fun hno => hd (hdef.2 hno), .tag hfront, ?_⟩
              intro x
              rw [leads_of_tag hfront, List.mem_cons, or_comm]
      | choice elmts =>
          have hall := addsAll_of_adds (fun definedTags t r hr => ih hr) h
          have hundef : m.Undefined definedTags t ↔
              ∀ e ∈ elmts, m.Undefined definedTags e := by
            constructor
            · intro hu e he x hx y hy
              exact hu x hx y ((leads_of_choice hfront).2 ⟨e, he, hy⟩)
            · intro hu x hx y hy
              obtain ⟨e, he, hy⟩ := (leads_of_choice hfront).1 hy
              exact hu e he x hx y hy
          constructor
          · intro definedTags' heq
            obtain ⟨hund, hsep, hmem⟩ := hall.ok definedTags' heq
            refine ⟨hundef.2 hund, (separate_of_choice hfront).2 hsep, fun x => ?_⟩
            rw [hmem, leads_of_choice hfront]
          · intro e heq hno
            exact hall.error e heq ⟨hundef.1 hno.1, (separate_of_choice hfront).1 hno.2⟩

/-! ### The checks of one type -/

theorem hasDistinctTags_iff {n : ℕ} {elmts : List ι} {distinct : Bool}
    (h : m.hasDistinctTags n elmts = some distinct) : distinct = true ↔ m.AllSeparate elmts := by
  rw [hasDistinctTags, Option.map_eq_some_iff] at h
  obtain ⟨r, hr, rfl⟩ := h
  have hadds := addsAll_of_adds (fun _ _ _ hr => adds_of_addFirstTag hr) hr
  cases r with
  | ok definedTags => exact iff_of_true rfl (hadds.ok definedTags rfl).2.1
  | error e =>
      refine iff_of_false (by simp) fun hsep => hadds.error e rfl ⟨?_, hsep⟩
      intro a _ x hx
      cases hx

@[simp] theorem leavesError_append (rs rs' : List Report) :
    leavesError (rs ++ rs') = (leavesError rs || leavesError rs') := List.any_append

@[simp] theorem leavesError_cons (r : Report) (rs : List Report) :
    leavesError (r :: rs) = (r.setsError || leavesError rs) := rfl

@[simp] theorem leavesError_nil : leavesError [] = false := rfl

/-- The tags are those of the run, as long as nothing has been reported. -/
theorem chkSeqTags_iff {n : ℕ} {dO : List Tag} {run elmts : List ι} {rs : List Report}
    (hdO : ∀ x, x ∈ dO ↔ ∃ a ∈ run, m.Leads a x) (h : m.chkSeqTags n dO elmts = some rs) :
    leavesError rs = false ↔ m.RunsSeparate run elmts := by
  induction elmts generalizing dO run rs with
  | nil =>
      cases h
      exact iff_of_true rfl trivial
  | cons e es ih =>
      have hundef : m.Undefined dO e ↔ ∀ a ∈ run, m.Apart tagObjCmp a e := by
        constructor
        · exact fun hu a ha x y hx hy => hu x ((hdO x).2 ⟨a, ha, hx⟩) y hy
        · intro hu x hx y hy
          obtain ⟨a, ha, hx⟩ := (hdO x).1 hx
          exact hu a ha x y hx hy
      rw [chkSeqTags] at h
      rw [RunsSeparate, ← hundef]
      cases hopt : m.optional e with
      | true =>
          rw [if_pos hopt] at h
          cases hv : m.graph.addFirstTag n dO e with
          | none => simp [hv] at h
          | some q =>
              have hadds := adds_of_addFirstTag hv
              rw [hv] at h
              cases q with
              | ok dO' =>
                  obtain ⟨hund, hsep, hmem⟩ := hadds.ok dO' rfl
                  have hdO' : ∀ x, x ∈ dO' ↔ ∃ a ∈ run ++ [e], m.Leads a x := by
                    intro x
                    rw [hmem, hdO]
                    simp [or_and_right, exists_or]
                  simpa [hund, hsep] using ih hdO' h
              | error d =>
                  obtain ⟨rs', -, rfl⟩ := Option.map_eq_some_iff.1 h
                  refine iff_of_false (by simp [Report.setsError]) ?_
                  rintro ⟨hund, hsep, -⟩
                  exact hadds.error d rfl ⟨hund, hsep (.inl rfl)⟩
      | false =>
          rw [if_neg (by simp [hopt])] at h
          have hnone : ∀ x, x ∈ ([] : List Tag) ↔ ∃ a ∈ ([] : List ι), m.Leads a x := by simp
          by_cases hnil : dO = []
          · rw [if_neg (by simpa using hnil), hnil] at h
            subst hnil
            have hno : ¬ ∃ a ∈ run, ∃ x, m.Leads a x := by
              rintro ⟨a, ha, x, hx⟩
              exact absurd ((hdO x).2 ⟨a, ha, hx⟩) List.not_mem_nil
            have hund : m.Undefined [] e := by
              intro x hx
              cases hx
            simpa [hno, hund] using ih hnone h
          · rw [if_pos hnil] at h
            obtain ⟨x, hx⟩ := List.exists_mem_of_ne_nil _ hnil
            obtain ⟨a, ha, hxa⟩ := (hdO x).1 hx
            have hyes : ∃ a ∈ run, ∃ x, m.Leads a x := ⟨a, ha, x, hxa⟩
            cases hv : m.graph.addFirstTag n dO e with
            | none => simp [hv] at h
            | some q =>
                have hadds := adds_of_addFirstTag hv
                rw [hv] at h
                cases q with
                | ok dO' =>
                    obtain ⟨hund, hsep, -⟩ := hadds.ok dO' rfl
                    simpa [hund, hsep] using ih hnone h
                | error d =>
                    obtain ⟨rs', -, rfl⟩ := Option.map_eq_some_iff.1 h
                    refine iff_of_false (by simp [Report.setsError]) ?_
                    rintro ⟨hund, hsep, -⟩
                    exact hadds.error d rfl ⟨hund, hsep (.inr hyes)⟩

/-- Named numbers are reported without an error in the status. -/
theorem leavesError_chkNamedNumbers (ids : List Name) (nums : List ℤ) (n : List NamedNumber) :
    leavesError (chkNamedNumbersFrom ids nums n) = false := by
  induction n generalizing ids nums with
  | nil => rfl
  | cons nn ns ih =>
      have hid : leavesError (if objIsDefined ids nn.definedName then
          [.sameIdentifier nn.definedName] else []) = false := by
        split <;> rfl
      rw [chkNamedNumbersFrom]
      cases nn.value with
      | none => simp [hid, ih, Report.setsError]
      | some v =>
          dsimp only
          split <;> simp [hid, ih, Report.setsError]

theorem leavesError_chkNamedBits (n : List NamedNumber) : leavesError (chkNamedBits n) = false := by
  have hbits : leavesError ((n.filter fun vd => vd.value.any (· < 0)).map fun vd =>
      .negativeBit vd.definedName) = false := by
    simp [leavesError, Report.setsError]
  rw [chkNamedBits, leavesError_append, chkNamedNumbers, leavesError_chkNamedNumbers, hbits]
  rfl

theorem errChkElmtTypes_iff {check : ι → Option (List Report)} {p : ι → Prop}
    (hcheck : ∀ e rs, check e = some rs → (leavesError rs = false ↔ p e)) {elmts : List ι}
    {rs : List Report} (h : errChkElmtTypes check elmts = some rs) :
    leavesError rs = false ↔ ∀ e ∈ elmts, p e := by
  induction elmts generalizing rs with
  | nil =>
      cases h
      exact iff_of_true rfl (by simp)
  | cons e es ih =>
      simp only [errChkElmtTypes, Option.bind_eq_bind, Option.bind_eq_some_iff,
        Option.pure_def, Option.some.injEq] at h
      obtain ⟨rs₁, h₁, rs₂, h₂, rfl⟩ := h
      simp [hcheck e rs₁ h₁, ih h₂]

/-! ### The module -/

/-- What is recorded about the type itself. -/
structure TypeSeparate (m : CheckedModule ι κ) (t : ι) : Prop where
  choice : ∀ elmts, m.content t = .choice elmts → m.AllSeparate elmts
  set : ∀ elmts, m.content t = .set elmts → m.AllSeparate elmts
  sequence : ∀ elmts, m.content t = .sequence elmts → m.RunsSeparate [] elmts

def PartOf (m : CheckedModule ι κ) (t e : ι) : Prop := e ∈ (m.content t).elmts

/-- A property of a type and all its parts. -/
theorem forall_partOf_iff {p : ι → Prop} {t : ι} :
    (∀ u, ReflTransGen m.PartOf t u → p u) ↔
      p t ∧ ∀ e ∈ (m.content t).elmts, ∀ u, ReflTransGen m.PartOf e u → p u := by
  constructor
  · intro h
    exact ⟨h t .refl, fun e he u hu => h u (hu.head he)⟩
  · rintro ⟨ht, hparts⟩ u hu
    rcases ReflTransGen.cases_head hu with rfl | ⟨e, he, hu⟩
    · exact ht
    · exact hparts e he u hu

theorem typeSeparate_sequence {t : ι} {elmts : List ι} (ht : m.content t = .sequence elmts) :
    m.TypeSeparate t ↔ m.RunsSeparate [] elmts := by
  constructor
  · exact fun hs => hs.sequence elmts ht
  · exact fun hs => ⟨by simp [ht], by simp [ht], by simp [ht, hs]⟩

theorem typeSeparate_choice {t : ι} {elmts : List ι} (ht : m.content t = .choice elmts) :
    m.TypeSeparate t ↔ m.AllSeparate elmts := by
  constructor
  · exact fun hs => hs.choice elmts ht
  · exact fun hs => ⟨by simp [ht, hs], by simp [ht], by simp [ht]⟩

theorem typeSeparate_set {t : ι} {elmts : List ι} (ht : m.content t = .set elmts) :
    m.TypeSeparate t ↔ m.AllSeparate elmts := by
  constructor
  · exact fun hs => hs.set elmts ht
  · exact fun hs => ⟨by simp [ht], by simp [ht, hs], by simp [ht]⟩

/-- Nothing is asked of the other types. -/
theorem typeSeparate_of_content {t : ι} (hchoice : ∀ elmts, m.content t ≠ .choice elmts)
    (hset : ∀ elmts, m.content t ≠ .set elmts)
    (hsequence : ∀ elmts, m.content t ≠ .sequence elmts) : m.TypeSeparate t :=
  ⟨fun elmts h => absurd h (hchoice elmts), fun elmts h => absurd h (hset elmts),
    fun elmts h => absurd h (hsequence elmts)⟩

theorem errChkType_iff {n : ℕ} {t : ι} {rs : List Report} (h : m.errChkType n t = some rs) :
    leavesError rs = false ↔ ∀ u, ReflTransGen m.PartOf t u → m.TypeSeparate u := by
  induction n generalizing t rs with
  | zero => cases h
  | succ n ih =>
      have helmts {elmts : List ι} {rs : List Report}
          (hr : errChkElmtTypes (m.errChkType n) elmts = some rs) :=
        errChkElmtTypes_iff (fun e rs hr => ih hr) hr
      rw [forall_partOf_iff]
      rw [errChkType] at h
      cases ht : m.content t with
      | namedNumbers ns =>
          rw [ht] at h
          cases h
          refine iff_of_true (leavesError_chkNamedNumbers _ _ _) ⟨?_, by simp [Content.elmts]⟩
          exact typeSeparate_of_content (by simp [ht]) (by simp [ht]) (by simp [ht])
      | namedBits ns =>
          rw [ht] at h
          cases h
          refine iff_of_true (leavesError_chkNamedBits _) ⟨?_, by simp [Content.elmts]⟩
          exact typeSeparate_of_content (by simp [ht]) (by simp [ht]) (by simp [ht])
      | other =>
          rw [ht] at h
          cases h
          refine iff_of_true rfl ⟨?_, by simp [Content.elmts]⟩
          exact typeSeparate_of_content (by simp [ht]) (by simp [ht]) (by simp [ht])
      | listOf elmt =>
          rw [ht] at h
          have htype : m.TypeSeparate t :=
            typeSeparate_of_content (by simp [ht]) (by simp [ht]) (by simp [ht])
          simpa [htype, Content.elmts] using ih h
      | objectClass classdef =>
          rw [ht] at h
          have htype : m.TypeSeparate t :=
            typeSeparate_of_content (by simp [ht]) (by simp [ht]) (by simp [ht])
          simpa [htype, Content.elmts] using helmts h
      | sequence elmts =>
          simp only [ht, Option.bind_eq_bind, Option.bind_eq_some_iff, Option.pure_def,
            Option.some.injEq] at h
          obtain ⟨rs₁, h₁, rs₂, h₂, rfl⟩ := h
          rw [leavesError_append, Bool.or_eq_false_iff, helmts h₁,
            @chkSeqTags_iff _ _ m n [] [] elmts rs₂ (by simp) h₂, typeSeparate_sequence ht,
            and_comm]
          rfl
      | choice elmts =>
          simp only [ht, Option.bind_eq_bind, Option.bind_eq_some_iff, Option.pure_def,
            Option.some.injEq] at h
          obtain ⟨distinct, h₁, rs₂, h₂, rfl⟩ := h
          rw [typeSeparate_choice ht, ← hasDistinctTags_iff h₁]
          cases distinct with
          | true => simpa [Content.elmts] using helmts h₂
          | false => simp [Report.setsError]
      | set elmts =>
          simp only [ht, Option.bind_eq_bind, Option.bind_eq_some_iff, Option.pure_def,
            Option.some.injEq] at h
          obtain ⟨distinct, h₁, rs₂, h₂, rfl⟩ := h
          rw [typeSeparate_set ht, ← hasDistinctTags_iff h₁]
          cases distinct with
          | true => simpa [Content.elmts] using helmts h₂
          | false => simp [Report.setsError]

theorem reportDefined_eq_nil {defined ns : List Name} :
    reportDefined defined ns = [] ↔ ns.Nodup ∧ ∀ n ∈ ns, n ∉ defined := by
  induction ns generalizing defined with
  | nil => simp [reportDefined]
  | cons n ns ih =>
      rw [reportDefined]
      split
      · next h => simp [h]
      · next h =>
          rw [ih]
          simp only [List.nodup_cons, List.mem_cons, forall_eq_or_imp, not_or]
          grind

theorem tagsSeparate_iff :
    m.TagsSeparate ↔ ∀ t ∈ m.types, ∀ u, ReflTransGen m.PartOf t u → m.TypeSeparate u := by
  constructor
  · intro h t ht u hu
    exact ⟨fun elmts => h.choice u elmts ⟨t, ht, hu⟩, fun elmts => h.set u elmts ⟨t, ht, hu⟩,
      fun elmts => h.sequence u elmts ⟨t, ht, hu⟩⟩
  · intro h
    constructor
    · rintro u elmts ⟨t, ht, hu⟩
      exact (h t ht u hu).choice elmts
    · rintro u elmts ⟨t, ht, hu⟩
      exact (h t ht u hu).set elmts
    · rintro u elmts ⟨t, ht, hu⟩
      exact (h t ht u hu).sequence elmts

/-- What the status of the module says after the checks. -/
theorem errChkModule_status_iff {n : ℕ} {rs : List Report} (h : m.errChkModule n = some rs) :
    leavesError rs = false ↔ m.NameRules ∧ m.TagsSeparate := by
  rw [errChkModule, Option.map_eq_some_iff] at h
  obtain ⟨rs', hr, rfl⟩ := h
  have hnames : leavesError ((errChkNames m.names).map .multiplyDefined) = false ↔
      m.NameRules := by
    have hnil : errChkNames m.names = [] ↔ m.NameRules := by
      simp [errChkNames, reportDefined_eq_nil, NameRules]
    rw [← hnil]
    cases errChkNames m.names <;> simp [Report.setsError]
  rw [leavesError_append, Bool.or_eq_false_iff, hnames, tagsSeparate_iff,
    errChkElmtTypes_iff (fun e rs hr => errChkType_iff hr) hr]

/-- A module with the one definition `A ::= INTEGER { a (1), a (1) }`. -/
def sameNumbers : CheckedModule Unit Unit where
  names := ⟨⟨['M'], []⟩, [⟨['A'], false⟩], [], []⟩
  graph := ⟨fun _ => ⟨[⟨.univ, 2, none⟩], false, .other⟩, fun _ => .other⟩
  content _ := .namedNumbers [⟨['a'], some 1⟩, ⟨['a'], some 1⟩]
  optional _ := false
  types := [()]
  choices := by simp

theorem sameNumbers_errChkModule :
    sameNumbers.errChkModule 1 = some [.sameIdentifier ['a'], .sameValue ['a']] := by decide

end CheckedModule

end Esnacc.Compiler
