import Esnacc.Compiler.FirstTagTermination
import Esnacc.Compiler.TagReading

/-!
The three loops over the tags of a type agree. `GetTags` gives the list; `CountTags` counts it,
and `AddFirstTag` defines its first tag, or all of it if it has been put together from the
elements of an untagged CHOICE.
-/

namespace Esnacc.Compiler

namespace TypeGraph

variable {ι κ : Type} {g : TypeGraph ι κ}

/-- Tags are defined in order, up to one that counts as defined already. -/
def defineTags : List Tag → List Tag → Except (List Tag) (List Tag)
  | definedTags, [] => .ok definedTags
  | definedTags, tag :: tags =>
      if isDefined definedTags tag then .error definedTags
      else defineTags (tag :: definedTags) tags

/-- No tag is defined already, and no two count as the same. -/
def AllNew (definedTags tags : List Tag) : Prop :=
  (∀ tag ∈ tags, isDefined definedTags tag = false) ∧
    tags.Pairwise fun tag tag' => tagObjCmp tag tag' = false

/-- The type is a reference to the other one, or a CHOICE with it. -/
def StepsTo (g : TypeGraph ι κ) (t u : ι) : Prop :=
  g.RefersTo t u ∨ ∃ elmts, (g.type t).basicType = .choice elmts ∧ u ∈ elmts

/-- There is no way from the type on that does not end. -/
def NonCircular (g : TypeGraph ι κ) (t : ι) : Prop := Acc (flip g.StepsTo) t

/-! ### Defining tags -/

theorem defineTags_append (definedTags tags tags' : List Tag) :
    defineTags definedTags (tags ++ tags') =
      (defineTags definedTags tags).bind fun definedTags => defineTags definedTags tags' := by
  induction tags generalizing definedTags with
  | nil => rfl
  | cons tag tags ih =>
      rw [List.cons_append, defineTags, defineTags]
      split
      · rfl
      · exact ih _

theorem defineTags_of_allNew {definedTags tags : List Tag} (h : AllNew definedTags tags) :
    defineTags definedTags tags = .ok (tags.reverse ++ definedTags) := by
  induction tags generalizing definedTags with
  | nil => rfl
  | cons tag tags ih =>
      obtain ⟨hnew, hpair⟩ := h
      obtain ⟨hnew, hrest⟩ := List.forall_mem_cons.mp hnew
      obtain ⟨hapart, hpair⟩ := List.pairwise_cons.mp hpair
      have hall : AllNew (tag :: definedTags) tags := by
        refine ⟨fun tag' htag' => ?_, hpair⟩
        rw [isDefined, List.any_cons, hapart tag' htag', Bool.false_or]
        exact hrest tag' htag'
      rw [defineTags, hnew, if_neg Bool.false_ne_true, ih hall, List.reverse_cons,
        List.append_assoc, List.singleton_append]

/-! ### Counting -/

theorem countTagsFrom_of_reads {t : ι} {imp : Bool} {tags : List Tag} {b : BasicType ι}
    (h : g.Reads t imp tags b) (tagCount : ℕ) :
    ∃ n, g.countTagsFrom n t (g.enter t imp).1 (g.enter t imp).2 tagCount =
      some (tagCount + tags.length) := by
  induction h generalizing tagCount with
  | @stop t imp h =>
      refine ⟨1, ?_⟩
      rw [countTagsFrom]
      split
      · next u hu => exact absurd hu (h u)
      · rfl
  | @link t u imp tags b h _ ih =>
      obtain ⟨n, hn⟩ := ih (tagCount + (g.enter t imp).1.length)
      refine ⟨n + 1, ?_⟩
      rw [countTagsFrom, h, List.length_append, ← Nat.add_assoc]
      exact hn

theorem countTags_of_reads {t : ι} {tags : List Tag} {b : BasicType ι}
    (h : g.Reads t false tags b) : ∃ n, g.countTags n t = some tags.length := by
  obtain ⟨n, hn⟩ := countTagsFrom_of_reads h 0
  rw [enter_false, Nat.zero_add] at hn
  exact ⟨n, hn⟩

/-! ### Adding the first tag -/

/-- What a type starts with whose tags have been read. -/
def frontOf : List Tag → BasicType ι → Front ι
  | tag :: _, _ => .tag tag
  | [], .choice elmts => .choice elmts
  | [], _ => .bare

theorem startsWith_of_reads {t : ι} {imp : Bool} {tags : List Tag} {b : BasicType ι}
    (h : g.Reads t imp tags b) :
    g.StartsWith t (g.enter t imp).1 (g.enter t imp).2 (frontOf tags b) := by
  induction h with
  | @stop t imp h =>
      cases (g.enter t imp).1 with
      | cons tag tl => exact .tag t tag tl _
      | nil =>
          cases hb : (g.type t).basicType with
          | choice elmts => exact .choice _ hb
          | other => exact .other _ hb
          | typeRef link =>
              cases link with
              | none => exact .unlinked _ hb
              | some u => exact absurd hb (h u)
  | @link t u imp tags b h _ ih =>
      cases (g.enter t imp).1 with
      | cons tag tl => exact .tag t tag tl _
      | nil => exact .link h ih

theorem hasFront_of_reads {t : ι} {tags : List Tag} {b : BasicType ι}
    (h : g.Reads t false tags b) : g.HasFront t (frontOf tags b) := by
  have hstart := startsWith_of_reads h
  rwa [enter_false] at hstart

/-- What `AddFirstTag` does with what the type starts with. -/
def visitFront (g : TypeGraph ι κ) (n : ℕ) (definedTags : List Tag) :
    Front ι → Option (Except (List Tag) (List Tag))
  | .tag tag => some (defineTags definedTags [tag])
  | .choice elmts => Walk.forEach (g.addFirstTag n) elmts definedTags
  | .bare => some (.ok definedTags)

theorem addFirstTag_of_hasFront {t : ι} {front : Front ι} (h : g.HasFront t front)
    {definedTags : List Tag} {r : Except (List Tag) (List Tag)} {k : ℕ}
    (hr : ∀ n, k ≤ n → g.visitFront n definedTags front = some r) :
    ∃ n, g.addFirstTag n definedTags t = some r := by
  obtain ⟨n, hn⟩ := exists_firstTag h
  refine ⟨max n k + 1, ?_⟩
  have hmore : g.firstTag (max n k + 1) t (g.type t).tags false = some front :=
    Walk.mono_of_succ (w := fun n => g.firstTag n t (g.type t).tags false)
      (fun n _ => firstTag_succ n) (by omega) hn
  have hvisit := hr (max n k) (le_max_right n k)
  rw [addFirstTag_eq, hmore]
  cases front with
  | tag tag =>
      rw [visitFront, defineTags, defineTags] at hvisit
      rw [← hvisit]
      exact (apply_ite some _ _ _).symm
  | choice elmts => exact hvisit
  | bare => exact hvisit

/-- The elements of a CHOICE one after the other. -/
theorem forEach_addFirstTag {elmts : List ι} {tags : ι → List Tag}
    (h : ∀ e ∈ elmts, ∀ definedTags, ∃ n,
      g.addFirstTag n definedTags e = some (defineTags definedTags (tags e)))
    (definedTags : List Tag) : ∃ k, ∀ n, k ≤ n → Walk.forEach (g.addFirstTag n) elmts definedTags =
      some (defineTags definedTags (elmts.flatMap tags)) := by
  induction elmts generalizing definedTags with
  | nil => exact ⟨0, fun _ _ => rfl⟩
  | cons e es ih =>
      obtain ⟨n, hn⟩ := h e List.mem_cons_self definedTags
      have hmore {n' : ℕ} (hle : n ≤ n') := Walk.mono_of_succ
        (w := fun n => g.addFirstTag n definedTags e) (fun n _ => addFirstTag_succ n) hle hn
      rw [List.flatMap_cons, defineTags_append]
      cases hd : defineTags definedTags (tags e) with
      | error d =>
          refine ⟨n, fun n' hle => ?_⟩
          rw [Walk.forEach, hmore hle, hd]
          rfl
      | ok d =>
          obtain ⟨k, hk⟩ := ih (fun a ha => h a (List.mem_cons_of_mem _ ha)) d
          refine ⟨max n k, fun n' hle => ?_⟩
          rw [Walk.forEach, hmore (by omega), hd]
          exact hk n' (by omega)

theorem addFirstTag_of_yields {t : ι} {r : List Tag × Bool} (h : g.Yields t r)
    (definedTags : List Tag) :
    ∃ n, g.addFirstTag n definedTags t = some (defineTags definedTags (stolen r)) := by
  induction h generalizing definedTags with
  | @tags t tags b hreads hb =>
      refine addFirstTag_of_hasFront (k := 0) (hasFront_of_reads hreads) fun n _ => ?_
      cases tags with
      | cons tag tags => rfl
      | nil =>
          cases b with
          | choice elmts => exact absurd rfl (hb.resolve_left (by simp) elmts)
          | typeRef link => rfl
          | other => rfl
  | @choice t elmts r hreads _ _ ih =>
      have hvisits : ∀ e ∈ elmts, ∀ definedTags, ∃ n, g.addFirstTag n definedTags e =
          some (defineTags definedTags (stolen (r e))) := fun e he => ih e he
      obtain ⟨k, hk⟩ := forEach_addFirstTag hvisits definedTags
      exact addFirstTag_of_hasFront (hasFront_of_reads hreads) hk

/-! ### The loops end -/

theorem NonCircular.refersTo {t : ι} (h : g.NonCircular t) : Acc (flip g.RefersTo) t :=
  Subrelation.accessible (fun {_ _} hr => .inl hr) h

/-- What has been read lies below the type. -/
theorem stepsTo_of_reads {t e : ι} {imp : Bool} {tags : List Tag} {elmts : List ι}
    {b : BasicType ι} (h : g.Reads t imp tags b) (hb : b = .choice elmts) (he : e ∈ elmts) :
    Relation.TransGen g.StepsTo t e := by
  induction h with
  | stop _ => exact .single (.inr ⟨elmts, hb, he⟩)
  | link hlink _ ih => exact .head (.inl hlink) (ih hb)

theorem exists_reads {t : ι} (h : Acc (flip g.RefersTo) t) (imp : Bool) :
    ∃ tags b, g.Reads t imp tags b := by
  induction h generalizing imp with
  | intro t _ ih =>
      by_cases hlink : ∃ u, (g.type t).basicType = .typeRef (some u)
      · obtain ⟨u, hu⟩ := hlink
        obtain ⟨tags, b, hreads⟩ := ih u hu (g.refIsImplicit t (g.enter t imp).2)
        exact ⟨_, b, .link hu hreads⟩
      · exact ⟨_, _, .stop fun u hu => hlink ⟨u, hu⟩⟩

theorem exists_stealTags (retVal : List Tag) (r : Except SnaccExit (List Tag × Bool)) :
    ∃ q, stealTags retVal (some r) = some q := by
  rcases r with e | ⟨tl, _ | _⟩
  · exact ⟨_, rfl⟩
  · cases tl <;> exact ⟨_, rfl⟩
  · exact ⟨_, rfl⟩

/-- `GetTags` returns, whether with a list or by leaving the compiler. -/
theorem getTags_of_nonCircular {t : ι} (h : g.NonCircular t) : ∃ n r, g.getTags n t = some r := by
  have hbelow := Acc.transGen h
  induction hbelow with
  | intro t _ ih =>
      obtain ⟨tags, b, hreads⟩ := exists_reads h.refersTo false
      obtain ⟨n, u, hn, hu⟩ := collectTags_of_reads hreads []
      rw [enter_false, List.nil_append] at hn
      have hmore {n' : ℕ} (hle : n ≤ n') := collectTags_mono hle hn
      by_cases hchoice : tags = [] ∧ ∃ elmts, b = .choice elmts
      · obtain ⟨rfl, elmts, rfl⟩ := hchoice
        have hvisits := @Walk.forEach_terminates _ _ _ g.stealFrom
          (fun n n' retVal e q hle hq => stealFrom_mono hle hq) elmts (fun _ _ => True)
          (fun pre e post retVal hall _ => by
            have he : e ∈ elmts := hall ▸ List.mem_append_right pre List.mem_cons_self
            have hdown : Relation.TransGen (flip g.StepsTo) e t :=
              Relation.transGen_swap.mpr (stepsTo_of_reads hreads rfl he)
            obtain ⟨k, r, hr⟩ := ih e hdown (h.inv_of_transGen hdown)
            obtain ⟨q, hq⟩ := exists_stealTags retVal r
            exact ⟨k, q, by rw [stealFrom, hr, hq], fun _ _ => trivial⟩) [] trivial
        obtain ⟨k, q, hq⟩ := hvisits
        refine ⟨max n k + 1, q.map fun retVal => (retVal, true), ?_⟩
        rw [getTags_eq, hmore (by omega)]
        simp only [hu, if_true]
        rw [Walk.forEach_mono (fun s e q hq => stealFrom_mono (le_max_right n k) hq) hq]
        rfl
      · refine ⟨n + 1, .ok (tags, false), ?_⟩
        rw [getTags_eq, hmore (by omega)]
        cases hb : (g.type u).basicType with
        | choice elmts =>
            have hne : tags ≠ [] := fun hnil => hchoice ⟨hnil, elmts, hu ▸ hb⟩
            simp only [hb, if_neg hne]
        | typeRef link => simp only [hb]
        | other => simp only [hb]

/-! ### The loops agree -/

/-- The list of tags behind a call of `AddFirstTag`, whatever it returns. -/
def tagsBehind : Except (List Tag) (List Tag) → List Tag
  | .ok definedTags => definedTags
  | .error definedTags => definedTags

/-- `CountTags` and `AddFirstTag` return what is expected of them when `GetTags` returns
`tags` and `stoleChoiceTags`. -/
structure HelpersAgree (g : TypeGraph ι κ) (t : ι) (tags : List Tag) (stoleChoiceTags : Bool) :
    Prop where
  countTags : stoleChoiceTags = false → ∃ n, g.countTags n t = some tags.length
  addFirstTag : ∀ definedTags, ∃ n, g.addFirstTag n definedTags t =
    some (defineTags definedTags (stolen (tags, stoleChoiceTags)))
  allNew : ∀ definedTags, AllNew definedTags (stolen (tags, stoleChoiceTags)) →
    ∃ n, g.addFirstTag n definedTags t =
      some (.ok ((stolen (tags, stoleChoiceTags)).reverse ++ definedTags))

theorem Yields.countTags {t : ι} {r : List Tag × Bool} (h : g.Yields t r) (hstole : r.2 = false) :
    ∃ n, g.countTags n t = some r.1.length := by
  cases h with
  | tags hreads _ => exact countTags_of_reads hreads
  | choice _ _ _ => cases hstole

theorem Yields.helpersAgree {t : ι} {tags : List Tag} {stoleChoiceTags : Bool}
    (h : g.Yields t (tags, stoleChoiceTags)) : g.HelpersAgree t tags stoleChoiceTags where
  countTags := h.countTags
  addFirstTag := addFirstTag_of_yields h
  allNew definedTags hnew := by
    obtain ⟨n, hn⟩ := addFirstTag_of_yields h definedTags
    exact ⟨n, by rw [hn, defineTags_of_allNew hnew]⟩

theorem tagHelpers_agree (g : TypeGraph ι κ) (t : ι) (h : g.NonCircular t) :
    (∃ n r, g.getTags n t = some r) ∧
      ∀ n tags stoleChoiceTags, g.getTags n t = some (.ok (tags, stoleChoiceTags)) →
        g.HelpersAgree t tags stoleChoiceTags :=
  ⟨getTags_of_nonCircular h, fun _ _ _ hget => (yields_of_getTags hget).helpersAgree⟩

/-- The types of `equalAlternatives`. -/
inductive WithAlternatives
  | whole
  | first
  | second
  | third

/-- An untagged CHOICE with the alternatives `[0]`, `[0]` and `[1]`. -/
def equalAlternatives : TypeGraph WithAlternatives Unit where
  type
    | .whole => ⟨[], false, .choice [.first, .second, .third]⟩
    | .first | .second => ⟨[⟨.cntx, 0, none⟩], false, .other⟩
    | .third => ⟨[⟨.cntx, 1, none⟩], false, .other⟩
  value _ := .other

theorem equalAlternatives_nonCircular : equalAlternatives.NonCircular .whole := by
  have hends {t : WithAlternatives} (ht : (equalAlternatives.type t).basicType = .other) :
      equalAlternatives.NonCircular t := by
    refine .intro t fun u hu => ?_
    rcases hu with hu | ⟨elmts, hu, -⟩
    · cases ht.symm.trans hu
    · cases ht.symm.trans hu
  refine .intro _ fun u hu => ?_
  cases u with
  | whole =>
      rcases hu with hu | ⟨elmts, hu, hmem⟩
      · cases hu
      · cases hu
        simp at hmem
  | first | second | third => exact hends rfl

theorem equalAlternatives_getTags : equalAlternatives.getTags 2 .whole =
    some (.ok ([⟨.cntx, 0, none⟩, ⟨.cntx, 0, none⟩, ⟨.cntx, 1, none⟩], true)) := rfl

theorem equalAlternatives_agree : equalAlternatives.HelpersAgree .whole
    [⟨.cntx, 0, none⟩, ⟨.cntx, 0, none⟩, ⟨.cntx, 1, none⟩] true :=
  (tagHelpers_agree equalAlternatives .whole equalAlternatives_nonCircular).2 2 _ _
    equalAlternatives_getTags

/-- The second `[0]` ends `AddFirstTag`, and `[1]` is not added. -/
theorem not_addFirstTag_all : ¬ ∀ (g : TypeGraph WithAlternatives Unit) (t : WithAlternatives),
    g.NonCircular t →
    ∀ n tags stoleChoiceTags, g.getTags n t = some (.ok (tags, stoleChoiceTags)) →
      ∀ definedTags n r, g.addFirstTag n definedTags t = some r →
        ∀ tag, tag ∈ tagsBehind r ↔
          tag ∈ definedTags ∨ tag ∈ stolen (tags, stoleChoiceTags) := by
  intro h
  have hadd : equalAlternatives.addFirstTag 2 [] .whole = some (.error [⟨.cntx, 0, none⟩]) := rfl
  have hmem := h equalAlternatives .whole equalAlternatives_nonCircular _ _ _
    equalAlternatives_getTags [] _ _ hadd ⟨.cntx, 1, none⟩
  revert hmem
  decide

end TypeGraph

end Esnacc.Compiler
