import Esnacc.Compiler.Normalize
import Esnacc.Compiler.TagReading

/-!
What one step of normalisation does to the tags. Each step is a simulation: what the types
mean is read before and after it alike, where the step keeps the tags.
-/

namespace Esnacc.Compiler.Normalize

namespace Types

variable {ι : Type} {s s' : Types ι} {implicitTags : ι → Bool} {t u : ι}

theorem lastImplicit_ne_nil {tags : List OwnTag} (h : lastImplicit tags = true) : tags ≠ [] := by
  rintro rfl
  simp [lastImplicit] at h

theorem hasTags_of_link (h : target (s.type t).body = some u) (htags : (s.type t).tags = []) :
    s.HasTags t ↔ s.HasTags u := by
  constructor
  · intro ht
    cases ht with
    | own hne => exact absurd htags hne
    | link h' hu =>
        rw [h] at h'
        cases h'
        exact hu
  · exact .link h

/-- A type that stays, with what it refers to, has tags as before. -/
theorem HasTags.congr (h : s.HasTags t) (P : ι → Prop) (ht : P t)
    (hclosed : ∀ x u, P x → target (s.type x).body = some u → P u)
    (hown : ∀ x, P x → (s.type x).tags ≠ [] → s'.HasTags x)
    (hlink : ∀ x u, P x → target (s.type x).body = some u → s'.HasTags u → s'.HasTags x) :
    s'.HasTags t := by
  induction h with
  | own h => exact hown _ ht h
  | link h _ ih => exact hlink _ _ ht h (ih (hclosed _ _ ht h))

theorem not_replaces_of_nil (hs : s.Linked) (ht : t ∈ s.used) (htags : (s.type t).tags = []) :
    ¬s.Replaces implicitTags t := by
  rintro (h | ⟨_, h, _⟩)
  · exact hs.implicitTagged t ht h htags
  · exact lastImplicit_ne_nil h htags

theorem replaces_congr (htype : s'.type t = s.type t)
    (h : ∀ u, target (s.type t).body = some u → (s'.HasTags u ↔ s.HasTags u)) :
    s'.Replaces implicitTags t ↔ s.Replaces implicitTags t := by
  rw [Replaces, Replaces, htype]
  refine or_congr_right (and_congr_right fun _ => and_congr_right fun _ => ?_)
  exact exists_congr fun u => and_congr_right fun hu => h u hu

/-! ### The types as they are meant -/

@[simp] theorem meaning_tags (t : ι) :
    ((s.meaning implicitTags).type t).tags = (s.type t).tags.map OwnTag.tag := rfl

theorem meaning_basicType_of_some (h : target (s.type t).body = some u) :
    ((s.meaning implicitTags).type t).basicType = .typeRef (some u) := by
  simp [meaning, h]

theorem meaning_basicType_of_none (h : target (s.type t).body = none) :
    ((s.meaning implicitTags).type t).basicType = basicType (s.type t).body := by
  simp [meaning, h]

theorem target_of_meaning (h : ((s.meaning implicitTags).type t).basicType = .typeRef (some u)) :
    target (s.type t).body = some u := by
  cases hb : (s.type t).body with
  | typeRef link => simpa [meaning, hb, target] using h
  | selection link => simpa [meaning, hb, target] using h
  | choice elmts => simp [meaning, hb, target, basicType] at h
  | constructed code => simp [meaning, hb, target, basicType] at h
  | other => simp [meaning, hb, target, basicType] at h

open Classical in
theorem refIsImplicit_eq (t : ι) (imp : Bool) : (s.meaning implicitTags).refIsImplicit t imp =
    (imp || decide (s.Replaces implicitTags t)) := rfl

theorem refIsImplicit_of_replaces (h : s.Replaces implicitTags t) (imp : Bool) :
    (s.meaning implicitTags).refIsImplicit t imp = true := by
  simp [refIsImplicit_eq, h]

theorem refIsImplicit_of_not_replaces (h : ¬s.Replaces implicitTags t) (imp : Bool) :
    (s.meaning implicitTags).refIsImplicit t imp = imp := by
  simp [refIsImplicit_eq, h]

theorem meaning_type_congr (htype : s'.type t = s.type t)
    (h : s'.Replaces implicitTags t ↔ s.Replaces implicitTags t) :
    (s'.meaning implicitTags).type t = (s.meaning implicitTags).type t := by
  simp [meaning, htype, h]

/-- Reading a reference or selection and the type right behind it. -/
theorem reads_of_target (implicitTags : ι → Bool) (h : target (s.type t).body = some u)
    (hu : target (s.type u).body = none) (imp : Bool) : (s.meaning implicitTags).Reads t imp
      (((s.meaning implicitTags).enter t imp).1 ++ ((s.meaning implicitTags).enter u
        ((s.meaning implicitTags).refIsImplicit t ((s.meaning implicitTags).enter t imp).2)).1)
      (basicType (s.type u).body) := by
  rw [← @meaning_basicType_of_none ι s implicitTags u hu]
  refine .link (meaning_basicType_of_some h) (.stop fun v hv => ?_)
  rw [target_of_meaning hv] at hu
  cases hu

/-- What the elements of a CHOICE that is read are. -/
theorem Linked.elmts_mem (hs : s.Linked) {x : ι} {imp : Bool} {tags : List Tag} {elmts : List ι}
    (h : (s.meaning implicitTags).Reads x imp tags (.choice elmts)) (hx : x ∈ s.used) :
    ∀ e ∈ elmts, e ∈ s.used := by
  generalize hb : BasicType.choice elmts = b at h
  induction h with
  | @stop x imp hno =>
      cases hbody : (s.type x).body with
      | choice es =>
          rw [meaning_basicType_of_none (by rw [hbody]; rfl), hbody] at hb
          cases hb
          exact hs.choice x hx _ hbody
      | typeRef link => exact absurd (meaning_basicType_of_some (by rw [hbody]; rfl)) (hno link)
      | selection link => exact absurd (meaning_basicType_of_some (by rw [hbody]; rfl)) (hno link)
      | constructed code =>
          rw [meaning_basicType_of_none (by rw [hbody]; rfl), hbody] at hb
          cases hb
      | other =>
          rw [meaning_basicType_of_none (by rw [hbody]; rfl), hbody] at hb
          cases hb
  | link h _ ih => exact ih (hs.target _ hx _ (target_of_meaning h)) hb

/-! ### Marking a reference -/

/-- Where tags are counted there are tags. -/
theorem hasTags_of_countTagsFrom {n k tagCount : ℕ} {tl : List Tag} {implicitRef : Bool}
    (h : s.graph.countTagsFrom n t tl implicitRef tagCount = some k)
    (htl : tl ≠ [] → (s.type t).tags ≠ []) (hk : k ≠ 0) : tagCount ≠ 0 ∨ s.HasTags t := by
  induction n generalizing t tl implicitRef tagCount with
  | zero => simp [TypeGraph.countTagsFrom] at h
  | succ n ih =>
      have hlength : tagCount + tl.length ≠ 0 → tagCount ≠ 0 ∨ s.HasTags t := by
        intro hne
        by_cases hnil : tl = []
        · exact .inl (by simpa [hnil] using hne)
        · exact .inr (.own (htl hnil))
      rw [TypeGraph.countTagsFrom] at h
      split at h
      · next u hu =>
          have htarget : target (s.type t).body = some u := by
            cases hbody : (s.type t).body with
            | typeRef link => simpa [graph, hbody, basicType, target] using hu
            | selection link => simp [graph, hbody, basicType] at hu
            | choice elmts => simp [graph, hbody, basicType] at hu
            | constructed code => simp [graph, hbody, basicType] at hu
            | other => simp [graph, hbody, basicType] at hu
          have htl' : (s.graph.enter u (s.graph.refIsImplicit t implicitRef)).1 ≠ [] →
              (s.type u).tags ≠ [] := by
            intro hne hnil
            exact hne (by simp [TypeGraph.enter, graph, hnil])
          rcases ih h htl' with hcount | hu
          · exact hlength hcount
          · exact .inr (.link htarget hu)
      · cases h
        exact hlength hk

theorem hasTags_of_countTags {n k : ℕ} (h : s.graph.countTags n t = some k) (hk : k ≠ 0) :
    s.HasTags t := by
  refine (hasTags_of_countTagsFrom h (fun hne hnil => hne ?_) hk).resolve_left (by simp)
  simp [graph, hnil]

section Steps

variable [DecidableEq ι] {link d : ι} {default : Bool}

@[simp] theorem update_used (t : ι) (ts : TypeState ι) : (s.update t ts).used = s.used := rfl

theorem update_type_self (t : ι) (ts : TypeState ι) : (s.update t ts).type t = ts := by
  simp [update]

theorem update_type_of_ne {x : ι} (h : x ≠ t) (ts : TypeState ι) :
    (s.update t ts).type x = s.type x := by
  simp [update, h]

theorem mark_type (x : ι) : ((s.mark t).type x).tags = (s.type x).tags ∧
    ((s.mark t).type x).body = (s.type x).body := by
  by_cases hx : x = t
  · rw [hx, mark, update_type_self]
    exact ⟨rfl, rfl⟩
  · rw [mark, update_type_of_ne hx]
    exact ⟨rfl, rfl⟩

theorem hasTags_mark (x : ι) : (s.mark t).HasTags x ↔ s.HasTags x := by
  constructor
  · intro h
    refine h.congr (fun _ => True) trivial (fun _ _ _ _ => trivial) ?_ ?_
    · exact fun x _ hne => .own ((mark_type x).1 ▸ hne)
    · exact fun x u _ hu hhas => .link ((mark_type x).2 ▸ hu) hhas
  · intro h
    refine h.congr (fun _ => True) trivial (fun _ _ _ _ => trivial) ?_ ?_
    · exact fun x _ hne => .own ((mark_type x).1.symm ▸ hne)
    · exact fun x u _ hu hhas => .link ((mark_type x).2.symm ▸ hu) hhas

/-- A reference is only marked that is meant to be implicit anyway. -/
theorem meaning_mark (ht : s.Replaces implicitTags t) (x : ι) :
    ((s.mark t).meaning implicitTags).type x = (s.meaning implicitTags).type x := by
  by_cases hx : x = t
  · subst hx
    have hrep : (s.mark x).Replaces implicitTags x := .inl (by rw [mark, update_type_self])
    simp [meaning, mark_type x, ht, hrep]
  · have htype : (s.mark t).type x = s.type x := by
      rw [mark, update_type_of_ne hx]
    exact meaning_type_congr htype (replaces_congr htype fun u _ => hasTags_mark u)

theorem linked_mark (hs : s.Linked) (hlast : (s.type t).tags ≠ []) : (s.mark t).Linked where
  target x hx u hu := hs.target x hx u ((mark_type x).2 ▸ hu)
  choice x hx elmts helmts := hs.choice x hx elmts ((mark_type x).2 ▸ helmts)
  implicitTagged x hx himp := by
    rw [(mark_type x).1]
    by_cases hxt : x = t
    · exact hxt ▸ hlast
    · rw [mark, update_type_of_ne hxt] at himp
      exact hs.implicitTagged x hx himp

/-! ### Replacing a selection -/

theorem select_type_of_ne {x : ι} (h : x ≠ t) :
    (s.select default t link).type x = s.type x := update_type_of_ne h _

theorem select_tags : ((s.select default t link).type t).tags =
    (s.type t).tags ++ selectedTags default (s.type t).isImplicit (s.type link).tags := by
  rw [select, update_type_self]

theorem select_body : ((s.select default t link).type t).body = (s.type link).body := by
  rw [select, update_type_self]

theorem select_isImplicit : ((s.select default t link).type t).isImplicit =
    ((s.type link).isImplicit || ((s.type link).tags = [] && (s.type t).isImplicit)) := by
  rw [select, update_type_self]

omit [DecidableEq ι] in
open Classical in
/-- A tag is dropped where the selection replaces it. -/
theorem selectedTags_eq (hk : Keeps implicitTags s (.select default t link))
    (hlink : (s.type link).tags ≠ []) :
    selectedTags default (s.type t).isImplicit (s.type link).tags =
      if s.Replaces implicitTags t then (s.type link).tags.tail else (s.type link).tags := by
  have hiff := (hk.2 hlink).1
  by_cases hr : s.Replaces implicitTags t
  · have hdrop : (default || (s.type t).isImplicit) = true := by simpa using hiff.mpr hr
    rw [selectedTags, if_pos hdrop, if_pos hr]
  · have hdrop : ¬(default || (s.type t).isImplicit) = true := by simpa using mt hiff.mp hr
    rw [selectedTags, if_neg hdrop, if_neg hr]

/-- The tags of the alternative are not lost as a whole. -/
theorem select_tags_ne_nil (hs : s.Linked) (ht : t ∈ s.used)
    (hk : Keeps implicitTags s (.select default t link)) (hlink : (s.type link).tags ≠ []) :
    ((s.select default t link).type t).tags ≠ [] := by
  rw [select_tags]
  by_cases hnil : (s.type t).tags = []
  · rw [selectedTags_eq hk hlink, if_neg (not_replaces_of_nil hs ht hnil), hnil]
    exact hlink
  · simp [hnil]

theorem linked_select (hs : s.Linked) (ht : t ∈ s.used)
    (hbody : (s.type t).body = .selection link)
    (hk : Keeps implicitTags s (.select default t link)) : (s.select default t link).Linked := by
  have hlink : link ∈ s.used := hs.target t ht link (by rw [hbody]; rfl)
  constructor
  case target =>
    intro x hx u hu
    by_cases hxt : x = t
    · rw [hxt, select_body] at hu
      exact hs.target link hlink u hu
    · rw [select_type_of_ne hxt] at hu
      exact hs.target x hx u hu
  case choice =>
    intro x hx elmts helmts
    by_cases hxt : x = t
    · rw [hxt, select_body] at helmts
      exact hs.choice link hlink elmts helmts
    · rw [select_type_of_ne hxt] at helmts
      exact hs.choice x hx elmts helmts
  case implicitTagged =>
    intro x hx himp
    by_cases hxt : x = t
    · rw [hxt, select_isImplicit, Bool.or_eq_true, Bool.and_eq_true] at himp
      rw [hxt]
      rcases himp with himp | ⟨_, himp⟩
      · exact select_tags_ne_nil hs ht hk (hs.implicitTagged link hlink himp)
      · simp [select_tags, hs.implicitTagged t ht himp]
    · rw [select_type_of_ne hxt] at himp ⊢
      exact hs.implicitTagged x hx himp

theorem hasTags_select (hs : s.Linked) (ht : t ∈ s.used) (hbody : (s.type t).body = .selection link)
    (hk : Keeps implicitTags s (.select default t link)) (x : ι) :
    (s.select default t link).HasTags x ↔ s.HasTags x := by
  have htarget : target (s.type t).body = some link := by rw [hbody]; rfl
  constructor
  · intro h
    refine h.congr (fun _ => True) trivial (fun _ _ _ _ => trivial) ?_ ?_
    · intro x _ hne
      by_cases hxt : x = t
      · subst hxt
        by_cases hnil : (s.type x).tags = []
        · refine .link htarget (.own fun hlink => hne ?_)
          rw [select_tags, hnil, hlink, selectedTags]
          simp
        · exact .own hnil
      · rw [select_type_of_ne hxt] at hne
        exact .own hne
    · intro x u _ hu hhas
      by_cases hxt : x = t
      · subst hxt
        rw [select_body] at hu
        exact .link htarget (.link hu hhas)
      · rw [select_type_of_ne hxt] at hu
        exact .link hu hhas
  · intro h
    refine h.congr (fun _ => True) trivial (fun _ _ _ _ => trivial) ?_ ?_
    · intro x _ hne
      by_cases hxt : x = t
      · subst hxt
        exact .own (by simp [select_tags, hne])
      · exact .own (by rwa [select_type_of_ne hxt])
    · intro x u _ hu hhas
      by_cases hxt : x = t
      · subst hxt
        rw [htarget] at hu
        cases hu
        -- behind the alternative is what the type has now
        cases hhas with
        | own hne =>
            rw [select_type_of_ne (Ne.symm hk.1)] at hne
            exact .own (select_tags_ne_nil hs ht hk hne)
        | link hu hhas =>
            rw [select_type_of_ne (Ne.symm hk.1)] at hu
            exact .link (by rwa [select_body]) hhas
      · exact .link (by rwa [select_type_of_ne hxt]) hhas

theorem replaces_select_of_ne (hs : s.Linked) (ht : t ∈ s.used)
    (hbody : (s.type t).body = .selection link)
    (hk : Keeps implicitTags s (.select default t link)) {x : ι} (hx : x ≠ t) :
    (s.select default t link).Replaces implicitTags x ↔ s.Replaces implicitTags x :=
  replaces_congr (select_type_of_ne hx) fun u _ => hasTags_select hs ht hbody hk u

/-- The alternative has no tags: what the selection said still holds of what is behind. -/
theorem replaces_select_of_nil (hs : s.Linked) (ht : t ∈ s.used)
    (hbody : (s.type t).body = .selection link)
    (hk : Keeps implicitTags s (.select default t link)) (hlink : (s.type link).tags = [])
    (hu : target (s.type link).body = some u) :
    (s.select default t link).Replaces implicitTags t ↔ s.Replaces implicitTags t := by
  have htarget : target (s.type t).body = some link := by rw [hbody]; rfl
  have himp : (s.type link).isImplicit = false := by
    by_contra himp
    exact hs.implicitTagged link (hs.target t ht link htarget) (by simpa using himp) hlink
  have hdropped : selectedTags default (s.type t).isImplicit (s.type link).tags = [] := by
    simp [selectedTags, hlink]
  rw [Replaces, Replaces, select_isImplicit, select_tags, select_body, hdropped, himp, hlink, hu,
    htarget]
  simp [hasTags_select hs ht hbody hk, hasTags_of_link hu hlink]

/-- The alternative has tags: what it said of what is behind is said now. -/
theorem replaces_select_of_ne_nil (hs : s.Linked) (ht : t ∈ s.used)
    (hbody : (s.type t).body = .selection link)
    (hk : Keeps implicitTags s (.select default t link)) (hlink : (s.type link).tags ≠ [])
    (hu : target (s.type link).body = some u) :
    (s.select default t link).Replaces implicitTags t ↔ s.Replaces implicitTags link := by
  have himp : ((s.select default t link).type t).isImplicit = (s.type link).isImplicit := by
    simp [select_isImplicit, hlink]
  rw [Replaces, Replaces, himp, select_tags, select_body, hu]
  by_cases himplicit : (s.type link).isImplicit = true
  · simp [himplicit]
  · by_cases hhas : s.HasTags u
    · have hiff := (hk.2 hlink).2 (by simpa using himplicit) ⟨u, hu, hhas⟩
      simpa [himplicit, hhas, hasTags_select hs ht hbody hk] using hiff
    · simp [himplicit, hhas, hasTags_select hs ht hbody hk]

/-- The tags of the selection and of the alternative become the tags of the type. -/
theorem enter_select (hs : s.Linked) (ht : t ∈ s.used)
    (hk : Keeps implicitTags s (.select default t link)) (imp : Bool) :
    ((s.meaning implicitTags).enter t imp).1 ++ ((s.meaning implicitTags).enter link
        ((s.meaning implicitTags).refIsImplicit t ((s.meaning implicitTags).enter t imp).2)).1 =
      (((s.select default t link).meaning implicitTags).enter t imp).1 := by
  by_cases hlink : (s.type link).tags = []
  · rw [TypeGraph.enter_of_nil (t := link) (by simp [hlink]), List.append_nil]
    simp [TypeGraph.enter, select_tags, hlink, selectedTags]
  · by_cases hnil : (s.type t).tags = []
    · have hr := @not_replaces_of_nil ι s implicitTags _ hs ht hnil
      rw [TypeGraph.enter_of_nil (t := t) (by simp [hnil]), refIsImplicit_of_not_replaces hr]
      simp [TypeGraph.enter, select_tags, hnil, selectedTags_eq hk hlink, hr]
    · have hne : ((s.select default t link).type t).tags ≠ [] := select_tags_ne_nil hs ht hk hlink
      rw [TypeGraph.enter_of_ne_nil (t := t) (by simpa using hnil),
        TypeGraph.enter_of_ne_nil (t := link) (by simpa using hlink),
        TypeGraph.enter_of_ne_nil (t := t) (by simpa using hne), refIsImplicit_eq]
      cases imp <;> by_cases hr : s.Replaces implicitTags t <;>
        simp [select_tags, selectedTags_eq hk hlink, hr, List.tail_append_of_ne_nil, hnil]

open Classical in
/-- What is behind the alternative is read as it was. -/
theorem refIsImplicit_select (hs : s.Linked) (ht : t ∈ s.used)
    (hbody : (s.type t).body = .selection link)
    (hk : Keeps implicitTags s (.select default t link)) (hu : target (s.type link).body = some u)
    (imp : Bool) :
    (s.meaning implicitTags).refIsImplicit link ((s.meaning implicitTags).enter link
        ((s.meaning implicitTags).refIsImplicit t ((s.meaning implicitTags).enter t imp).2)).2 =
      ((s.select default t link).meaning implicitTags).refIsImplicit t
        (((s.select default t link).meaning implicitTags).enter t imp).2 := by
  have hused : link ∈ s.used := hs.target t ht link (by rw [hbody]; rfl)
  by_cases hlink : (s.type link).tags = []
  · have hr := @not_replaces_of_nil ι s implicitTags _ hs hused hlink
    have henter : (((s.select default t link).meaning implicitTags).enter t imp).2 =
        ((s.meaning implicitTags).enter t imp).2 := by
      simp [TypeGraph.enter, select_tags, hlink, selectedTags]
    rw [TypeGraph.enter_of_nil (t := link) (by simp [hlink]), henter,
      refIsImplicit_of_not_replaces hr, refIsImplicit_eq, refIsImplicit_eq,
      decide_eq_decide.mpr (replaces_select_of_nil hs ht hbody hk hlink hu)]
  · have hne : ((s.select default t link).type t).tags ≠ [] := select_tags_ne_nil hs ht hk hlink
    have henter : (((s.select default t link).meaning implicitTags).enter t imp).2 = false := by
      rw [TypeGraph.enter_of_ne_nil (t := t) (by simpa using hne)]
    rw [TypeGraph.enter_of_ne_nil (t := link) (by simpa using hlink), henter, refIsImplicit_eq,
      refIsImplicit_eq, refIsImplicit_eq,
      decide_eq_decide.mpr (replaces_select_of_ne_nil hs ht hbody hk hlink hu)]

theorem reads_select (hs : s.Linked) (ht : t ∈ s.used) (hbody : (s.type t).body = .selection link)
    (hk : Keeps implicitTags s (.select default t link)) {x : ι} {imp : Bool} {tags : List Tag}
    {b : BasicType ι} (h : (s.meaning implicitTags).Reads x imp tags b) (hx : x ∈ s.used) :
    ((s.select default t link).meaning implicitTags).Reads x imp tags b := by
  have htarget : target (s.type t).body = some link := by rw [hbody]; rfl
  have hsame : ∀ x, x ≠ t → ((s.select default t link).meaning implicitTags).type x =
      (s.meaning implicitTags).type x := fun x hx =>
    meaning_type_congr (select_type_of_ne hx) (replaces_select_of_ne hs ht hbody hk hx)
  have htype := hsame link (Ne.symm hk.1)
  refine h.simulate hx (fun x u hx hu => hs.target x hx u (target_of_meaning hu)) ?_ ?_
  · intro x imp hx hno
    have hxt : x ≠ t := by
      rintro rfl
      exact hno link (meaning_basicType_of_some htarget)
    exact .stop_of (hsame x hxt) hno imp
  · intro x u imp tags b hx hu hr
    by_cases hxt : x = t
    · subst hxt
      rw [meaning_basicType_of_some htarget] at hu
      cases hu
      -- the alternative is read behind the selection: read the new type in its place
      cases hr with
      | stop hno =>
          have hbasic : (((s.select default x link).meaning implicitTags).type x).basicType =
              (((s.select default x link).meaning implicitTags).type link).basicType := by
            simp [meaning, select_body, select_type_of_ne (Ne.symm hk.1)]
          rw [← hbasic] at hno ⊢
          rw [TypeGraph.enter_congr htype, enter_select hs ht hk imp]
          exact .stop hno
      | @link _ u _ tags _ hu hr =>
          rw [htype] at hu
          have hu' := target_of_meaning hu
          rw [TypeGraph.enter_congr htype, TypeGraph.refIsImplicit_congr htype,
            refIsImplicit_select hs ht hbody hk hu'] at hr
          rw [TypeGraph.enter_congr htype, ← List.append_assoc, enter_select hs ht hk imp]
          exact .link (meaning_basicType_of_some (by rwa [select_body])) hr
    · exact .link_of (hsame x hxt) hu hr

/-! ### Moving an inline definition -/

theorem addConsTypeDef_used : (s.addConsTypeDef t d).used = insert d s.used := by
  rw [addConsTypeDef]
  split <;> rfl

theorem addConsTypeDef_type_of_ne {x : ι} (hxt : x ≠ t) (hxd : x ≠ d) :
    (s.addConsTypeDef t d).type x = s.type x := by
  rw [addConsTypeDef]
  split <;> exact (update_type_of_ne hxt _).trans (update_type_of_ne hxd _)

/-- A CHOICE is moved without its tags. -/
theorem addConsTypeDef_choice {elmts : List ι} (htd : t ≠ d)
    (hbody : (s.type t).body = .choice elmts) :
    (s.addConsTypeDef t d).type t = ⟨(s.type t).tags, (s.type t).isImplicit, .typeRef d⟩ ∧
      (s.addConsTypeDef t d).type d = ⟨[], false, .choice elmts⟩ := by
  simp only [addConsTypeDef, hbody]
  exact ⟨update_type_self t _, (update_type_of_ne htd.symm _).trans (update_type_self d _)⟩

theorem addConsTypeDef_constructed {code : ℤ} (htd : t ≠ d)
    (hbody : (s.type t).body = .constructed code) (htags : (s.type t).tags ≠ []) :
    (s.addConsTypeDef t d).type t =
        (if endsWith (s.type t).tags code then ⟨(s.type t).tags.dropLast, false, .typeRef d⟩
        else ⟨(s.type t).tags, true, .typeRef d⟩) ∧
      (s.addConsTypeDef t d).type d =
        ⟨[⟨⟨.univ, code, none⟩, false⟩], false, .constructed code⟩ := by
  simp only [addConsTypeDef, hbody]
  refine ⟨?_, (update_type_of_ne htd.symm _).trans (update_type_self d _)⟩
  simp [update, htags]

/-- The universal tag that is zapped is the one of the new definition. -/
theorem map_tag_of_endsWith {tags : List OwnTag} {code : ℤ} (h : endsWith tags code = true)
    (hvalue : (tags.getLast?.any fun last => last.tag.valueRef = none) = true) :
    tags.map OwnTag.tag = tags.dropLast.map OwnTag.tag ++ [⟨.univ, code, none⟩] := by
  cases hlast : tags.getLast? with
  | none => simp [endsWith, hlast] at h
  | some last =>
      obtain ⟨⟨tclass, code', valueRef⟩, isExplicit⟩ := last
      have hclass : tclass = .univ ∧ code' = code := by simpa [endsWith, hlast] using h
      have hnone : valueRef = none := by simpa [hlast] using hvalue
      obtain ⟨rfl, rfl⟩ := hclass
      subst hnone
      obtain ⟨init, rfl⟩ := List.getLast?_eq_some_iff.mp hlast
      simp

/-- What a step moves to a definition of its own. -/
def Inline (s : Types ι) (t : ι) : Prop :=
  (∃ elmts, (s.type t).body = .choice elmts) ∨ ∃ code, (s.type t).body = .constructed code

omit [DecidableEq ι] in
theorem Inline.target (h : s.Inline t) : target (s.type t).body = none := by
  rcases h with ⟨elmts, hbody⟩ | ⟨code, hbody⟩ <;> rw [hbody] <;> rfl

/-- What the reference to the new definition is. -/
theorem addConsTypeDef_self (htd : t ≠ d) (hin : s.Inline t)
    (hk : Keeps implicitTags s (.addConsTypeDef t d)) :
    ((s.addConsTypeDef t d).type t).body = .typeRef d ∧
      (((s.addConsTypeDef t d).type t).tags ≠ [] → (s.type t).tags ≠ []) ∧
      (((s.addConsTypeDef t d).type t).isImplicit = true →
        ((s.type t).isImplicit = true → (s.type t).tags ≠ []) →
          ((s.addConsTypeDef t d).type t).tags ≠ []) := by
  rcases hin with ⟨elmts, hbody⟩ | ⟨code, hbody⟩
  · rw [(addConsTypeDef_choice htd hbody).1]
    exact ⟨rfl, id, fun h himp => himp h⟩
  · have htags := (hk code hbody).1
    rw [(addConsTypeDef_constructed htd hbody htags).1]
    by_cases hends : endsWith (s.type t).tags code = true
    · simp [hends, htags]
    · simp [hends, htags]

/-- What the new definition is. -/
theorem addConsTypeDef_new (htd : t ≠ d) (hin : s.Inline t)
    (hk : Keeps implicitTags s (.addConsTypeDef t d)) :
    ((s.addConsTypeDef t d).type d).body = (s.type t).body ∧
      ((s.addConsTypeDef t d).type d).isImplicit = false ∧
      (((s.addConsTypeDef t d).type d).tags ≠ [] → (s.type t).tags ≠ []) := by
  rcases hin with ⟨elmts, hbody⟩ | ⟨code, hbody⟩
  · rw [(addConsTypeDef_choice htd hbody).2, hbody]
    exact ⟨rfl, rfl, fun h => absurd rfl h⟩
  · have htags := (hk code hbody).1
    rw [(addConsTypeDef_constructed htd hbody htags).2, hbody]
    exact ⟨rfl, rfl, fun _ => htags⟩

theorem linked_addConsTypeDef (hs : s.Linked) (ht : t ∈ s.used) (hd : d ∉ s.used)
    (hin : s.Inline t) (hk : Keeps implicitTags s (.addConsTypeDef t d)) :
    (s.addConsTypeDef t d).Linked := by
  have htd : t ≠ d := fun h => hd (h ▸ ht)
  obtain ⟨hself, _, himp⟩ := addConsTypeDef_self htd hin hk
  obtain ⟨hnew, hexplicit, _⟩ := addConsTypeDef_new htd hin hk
  -- the new definition, the reference to it, and what is as it was
  have hcases : ∀ x ∈ (s.addConsTypeDef t d).used, x = d ∨ x = t ∨
      x ∈ s.used ∧ (s.addConsTypeDef t d).type x = s.type x := by
    intro x hx
    rw [addConsTypeDef_used] at hx
    by_cases hxd : x = d
    · exact .inl hxd
    · by_cases hxt : x = t
      · exact .inr (.inl hxt)
      · exact .inr (.inr ⟨hx.resolve_left hxd, addConsTypeDef_type_of_ne hxt hxd⟩)
  have hsub : ∀ x ∈ s.used, x ∈ (s.addConsTypeDef t d).used := by
    intro x hx
    rw [addConsTypeDef_used]
    exact .inr hx
  constructor
  case target =>
    intro x hx u hu
    obtain rfl | rfl | ⟨hx, htype⟩ := hcases x hx
    · rw [hnew, hin.target] at hu
      cases hu
    · rw [hself] at hu
      cases hu
      rw [addConsTypeDef_used]
      exact .inl rfl
    · exact hsub u (hs.target x hx u (htype ▸ hu))
  case choice =>
    intro x hx elmts helmts e he
    obtain rfl | rfl | ⟨hx, htype⟩ := hcases x hx
    · rw [hnew] at helmts
      exact hsub e (hs.choice t ht elmts helmts e he)
    · rw [hself] at helmts
      cases helmts
    · exact hsub e (hs.choice x hx elmts (htype ▸ helmts) e he)
  case implicitTagged =>
    intro x hx himplicit
    obtain rfl | rfl | ⟨hx, htype⟩ := hcases x hx
    · rw [hexplicit] at himplicit
      cases himplicit
    · exact himp himplicit (hs.implicitTagged x ht)
    · rw [htype] at himplicit ⊢
      exact hs.implicitTagged x hx himplicit

theorem hasTags_addConsTypeDef (hs : s.Linked) (ht : t ∈ s.used) (hd : d ∉ s.used)
    (hin : s.Inline t) (hk : Keeps implicitTags s (.addConsTypeDef t d)) {x : ι} (hx : x ∈ s.used) :
    (s.addConsTypeDef t d).HasTags x ↔ s.HasTags x := by
  have htd : t ≠ d := fun h => hd (h ▸ ht)
  have hsame : ∀ x ∈ s.used, x ≠ t → (s.addConsTypeDef t d).type x = s.type x :=
    fun x hx hxt => addConsTypeDef_type_of_ne hxt fun h => hd (h ▸ hx)
  obtain ⟨hself, htags, _⟩ := addConsTypeDef_self htd hin hk
  obtain ⟨hnew, _, hnewTags⟩ := addConsTypeDef_new htd hin hk
  constructor
  · intro h
    induction h with
    | @own x hne =>
        by_cases hxt : x = t
        · subst hxt
          exact .own (htags hne)
        · exact .own (hsame x hx hxt ▸ hne)
    | @link x u hu hhas ih =>
        by_cases hxt : x = t
        · subst hxt
          rw [hself] at hu
          cases hu
          cases hhas with
          | own hne => exact .own (hnewTags hne)
          | link hu _ => rw [hnew, hin.target] at hu; cases hu
        · rw [hsame x hx hxt] at hu
          exact .link hu (ih (hs.target x hx u hu))
  · intro h
    refine h.congr (· ∈ s.used) hx (fun x u hx hu => hs.target x hx u hu) ?_ ?_
    · intro x hx hne
      by_cases hxt : x = t
      · subst hxt
        rcases hin with ⟨elmts, hbody⟩ | ⟨code, hbody⟩
        · exact .own (by rwa [(addConsTypeDef_choice htd hbody).1])
        · have hnewDef := (addConsTypeDef_constructed htd hbody hne).2
          exact @HasTags.link ι _ x d (by rw [hself]; rfl) (.own (by simp [hnewDef]))
      · exact .own (by rwa [hsame x hx hxt])
    · intro x u hx hu hhas
      have hxt : x ≠ t := by
        rintro rfl
        rw [hin.target] at hu
        cases hu
      exact .link (by rwa [hsame x hx hxt]) hhas

/-- The tags of the reference and of the new definition are the tags of the inline type. -/
theorem enter_addConsTypeDef (htd : t ≠ d) (hin : s.Inline t)
    (hk : Keeps implicitTags s (.addConsTypeDef t d)) (imp : Bool) :
    (((s.addConsTypeDef t d).meaning implicitTags).enter t imp).1 ++
        (((s.addConsTypeDef t d).meaning implicitTags).enter d
          (((s.addConsTypeDef t d).meaning implicitTags).refIsImplicit t
            (((s.addConsTypeDef t d).meaning implicitTags).enter t imp).2)).1 =
      ((s.meaning implicitTags).enter t imp).1 := by
  rcases hin with ⟨elmts, hbody⟩ | ⟨code, hbody⟩
  · obtain ⟨hself, hnew⟩ := addConsTypeDef_choice htd hbody
    rw [TypeGraph.enter_of_nil (t := d) (by simp [hnew]), List.append_nil]
    simp [TypeGraph.enter, hself]
  · obtain ⟨htags, hzap⟩ := hk code hbody
    obtain ⟨hself, hnew⟩ := addConsTypeDef_constructed htd hbody htags
    rw [TypeGraph.enter_of_ne_nil (t := d) (by simp [hnew]), refIsImplicit_eq]
    by_cases hends : endsWith (s.type t).tags code = true
    · rw [if_pos hends] at hself
      obtain ⟨hvalue, hlast⟩ := hzap hends
      have hr : ¬(s.addConsTypeDef t d).Replaces implicitTags t := by
        rintro (h | ⟨hdefault, h, _⟩)
        · rw [hself] at h
          cases h
        · rw [hself, hlast hdefault] at h
          cases h
      have hmap := map_tag_of_endsWith hends hvalue
      cases hinit : (s.type t).tags.dropLast with
      | nil =>
          rw [hinit, List.map_nil, List.nil_append] at hmap
          cases imp <;> simp [TypeGraph.enter, hself, hnew, hinit, hmap, hr]
      | cons tag init =>
          rw [hinit] at hmap
          cases imp <;> simp [TypeGraph.enter, hself, hnew, hinit, hmap, hr]
    · rw [if_neg hends] at hself
      have hr : (s.addConsTypeDef t d).Replaces implicitTags t := .inl (by rw [hself])
      simp [TypeGraph.enter, hself, hnew, hr]

theorem reads_addConsTypeDef (hs : s.Linked) (ht : t ∈ s.used) (hd : d ∉ s.used)
    (hin : s.Inline t) (hk : Keeps implicitTags s (.addConsTypeDef t d)) {x : ι} {imp : Bool}
    {tags : List Tag} {b : BasicType ι} (h : (s.meaning implicitTags).Reads x imp tags b)
    (hx : x ∈ s.used) : ((s.addConsTypeDef t d).meaning implicitTags).Reads x imp tags b := by
  have htd : t ≠ d := fun h => hd (h ▸ ht)
  have hsame : ∀ x ∈ s.used, x ≠ t → ((s.addConsTypeDef t d).meaning implicitTags).type x =
      (s.meaning implicitTags).type x := by
    intro x hx hxt
    have htype : (s.addConsTypeDef t d).type x = s.type x :=
      addConsTypeDef_type_of_ne hxt fun h => hd (h ▸ hx)
    exact meaning_type_congr htype <| replaces_congr htype fun u hu =>
      hasTags_addConsTypeDef hs ht hd hin hk (hs.target x hx u hu)
  refine h.simulate hx (fun x u hx hu => hs.target x hx u (target_of_meaning hu)) ?_ ?_
  · intro x imp hx hno
    by_cases hxt : x = t
    · subst hxt
      have hself := (addConsTypeDef_self htd hin hk).1
      have hnew := (addConsTypeDef_new htd hin hk).1
      have hbasic : (((s.addConsTypeDef x d).meaning implicitTags).type d).basicType =
          ((s.meaning implicitTags).type x).basicType := by
        simp [meaning, hnew]
      rw [← enter_addConsTypeDef htd hin hk imp]
      refine .link (meaning_basicType_of_some (by rw [hself]; rfl)) ?_
      rw [← hbasic] at hno ⊢
      exact .stop hno
    · exact .stop_of (hsame x hx hxt) hno imp
  · intro x u imp tags b hx hu hr
    have hxt : x ≠ t := by
      rintro rfl
      have htarget := target_of_meaning hu
      rw [hin.target] at htarget
      cases htarget
    exact .link_of (hsame x hx hxt) hu hr

end Steps

end Types

end Esnacc.Compiler.Normalize
