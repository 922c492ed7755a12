import Esnacc.Compiler.WalkTermination

/-!
When `AddFirstTag` terminates. A visit of an untagged CHOICE either finds a tag that has
not been defined, of which a module has finitely many, or ends at one that has, or comes
to an element in front of which there are only types without tags.
-/

namespace Esnacc.Compiler

namespace TypeGraph

variable {ι κ : Type} {m : TypeGraph ι κ}

/-- A tag of the list counts as the given one. -/
def isDefined (definedTags : List Tag) (tag : Tag) : Bool :=
  definedTags.any fun tag' => tagObjCmp tag' tag

theorem addFirstTag_eq (n : ℕ) (definedTags : List Tag) (t : ι) :
    m.addFirstTag (n + 1) definedTags t =
      match m.firstTag (n + 1) t (m.type t).tags false with
      | none => none
      | some (.tag tag) =>
          if isDefined definedTags tag then some (.error definedTags)
          else some (.ok (tag :: definedTags))
      | some (.choice elmts) => Walk.forEach (m.addFirstTag n) elmts definedTags
      | some .bare => some (.ok definedTags) := rfl

/-- `AddFirstTag` returns only if it has found what the type starts with. -/
theorem exists_hasFront {n : ℕ} {definedTags : List Tag} {t : ι}
    {r : Except (List Tag) (List Tag)} (h : m.addFirstTag n definedTags t = some r) :
    ∃ k front, n = k + 1 ∧ m.firstTag (k + 1) t (m.type t).tags false = some front ∧
      m.HasFront t front := by
  cases n with
  | zero => simp [addFirstTag] at h
  | succ n =>
      rw [addFirstTag_eq] at h
      cases hf : m.firstTag (n + 1) t (m.type t).tags false with
      | none => simp [hf] at h
      | some front => exact ⟨n, front, rfl, hf, startsWith_of_firstTag hf⟩

theorem addFirstTag_succ (n : ℕ) {definedTags : List Tag} {t : ι}
    {r : Except (List Tag) (List Tag)} (h : m.addFirstTag n definedTags t = some r) :
    m.addFirstTag (n + 1) definedTags t = some r := by
  induction n generalizing definedTags t r with
  | zero => simp [addFirstTag] at h
  | succ n ih =>
      obtain ⟨k, front, hk, hf, -⟩ := exists_hasFront h
      cases hk
      rw [addFirstTag_eq, hf] at h
      rw [addFirstTag_eq, firstTag_succ _ hf]
      cases front with
      | tag tag => exact h
      | bare => exact h
      | choice elmts => exact Walk.forEach_mono (fun s e r => ih) h

/-- A type without tags leaves the list as it is. -/
theorem addFirstTag_of_tagless {t : ι} (h : m.Tagless t) {n : ℕ} {definedTags : List Tag}
    {r : Except (List Tag) (List Tag)} (hr : m.addFirstTag n definedTags t = some r) :
    r = .ok definedTags := by
  induction h generalizing n r with
  | bare hfront =>
      obtain ⟨k, front, rfl, hf, hfront'⟩ := exists_hasFront hr
      cases hfront.unique hfront'
      rw [addFirstTag_eq, hf] at hr
      exact (Option.some.inj hr).symm
  | @choice t elmts hfront hall ih =>
      obtain ⟨k, front, rfl, hf, hfront'⟩ := exists_hasFront hr
      cases hfront.unique hfront'
      rw [addFirstTag_eq, hf] at hr
      clear hfront hf hfront' hall
      induction elmts with
      | nil => exact (Option.some.inj hr).symm
      | cons e es ihes =>
          simp only [Walk.forEach] at hr
          cases hv : m.addFirstTag k definedTags e with
          | none => simp [hv] at hr
          | some q =>
              rw [ih e (by simp) hv] at hv
              rw [hv] at hr
              exact ihes (fun b hb => ih b (List.mem_cons_of_mem _ hb)) hr

/-- `AddFirstTag` comes to every element in front of which there are no tags. -/
theorem addFirstTag_acc {definedTags : List Tag} {n : ℕ} {t : ι}
    (h : (m.addFirstTag n definedTags t).isSome) : Acc (flip m.AfterTagless) t := by
  apply Walk.acc_of_fuel (P := fun n t => (m.addFirstTag n definedTags t).isSome) _ _ h
  · intro t
    simp [addFirstTag]
  · intro n t e hnext hsome
    obtain ⟨pre, post, hfront, hpre⟩ := hnext
    obtain ⟨r, hr⟩ := Option.isSome_iff_exists.1 hsome
    obtain ⟨k, front, hk, hf, hfront'⟩ := exists_hasFront hr
    cases hk
    cases hfront.unique hfront'
    rw [addFirstTag_eq, hf] at hsome
    have hgoes : ∀ b ∈ pre, ∀ s r, s = definedTags → m.addFirstTag n s b = some r →
        ∃ s', r = .ok s' ∧ s' = definedTags := by
      rintro b hb s r rfl hr
      exact ⟨s, addFirstTag_of_tagless (hpre b hb) hr, rfl⟩
    obtain ⟨s, rfl, hvisit⟩ := Walk.forEach_visits (I := fun s => s = definedTags) rfl hgoes hsome
    exact hvisit

/-! ### The tags of a module -/

theorem mem_enter {u : ι} {implicitRef : Bool} {tag : Tag}
    (h : tag ∈ (m.enter u implicitRef).1) : tag ∈ (m.type u).tags := by
  rw [enter] at h
  split at h
  · exact List.mem_of_mem_tail h
  · exact h

section Finite

variable [Fintype ι]

/-- All tags of the types. -/
noncomputable def allTags (m : TypeGraph ι κ) : List Tag :=
  Finset.univ.toList.flatMap fun t => (m.type t).tags

theorem mem_allTags {t : ι} {tag : Tag} (h : tag ∈ (m.type t).tags) : tag ∈ m.allTags :=
  List.mem_flatMap.2 ⟨t, by simp, h⟩

theorem mem_allTags_of_startsWith {t : ι} {tl : List Tag} {implicitRef : Bool} {tag : Tag}
    {front : Front ι} (h : m.StartsWith t tl implicitRef front) (hfront : front = .tag tag)
    (htl : ∀ tag ∈ tl, tag ∈ m.allTags) : tag ∈ m.allTags := by
  induction h with
  | tag t tag' tl implicitRef =>
      cases hfront
      exact htl tag (by simp)
  | choice => cases hfront
  | other => cases hfront
  | unlinked => cases hfront
  | link _ _ ih => exact ih hfront fun tag hmem => mem_allTags (mem_enter hmem)

/-- How many tags of the module are not yet defined. -/
noncomputable def undefinedCount (m : TypeGraph ι κ) (definedTags : List Tag) : ℕ :=
  m.allTags.countP fun tag => !isDefined definedTags tag

theorem undefinedCount_cons_lt {definedTags : List Tag} {tag : Tag} (hmem : tag ∈ m.allTags)
    (hnew : ¬ isDefined definedTags tag = true) :
    m.undefinedCount (tag :: definedTags) < m.undefinedCount definedTags := by
  have hself : isDefined (tag :: definedTags) tag = true := by
    simp [isDefined, tagObjCmp_self]
  have hmono : ∀ tag', (!isDefined (tag :: definedTags) tag') = true →
      (!isDefined definedTags tag') = true := by
    intro tag' h
    simp only [isDefined, List.any_cons, Bool.not_or, Bool.and_eq_true] at h
    exact h.2
  rw [undefinedCount, undefinedCount]
  generalize m.allTags = tags at hmem
  induction tags with
  | nil => cases hmem
  | cons tag' tags ih =>
      have hle := List.countP_mono_left (l := tags) fun tag'' _ => hmono tag''
      rcases List.mem_cons.mp hmem with rfl | hmem
      · rw [List.countP_cons_of_neg (by simp [hself]), List.countP_cons_of_pos (by simp [hnew])]
        omega
      · have hlt := ih hmem
        rw [List.countP_cons, List.countP_cons]
        have himp := hmono tag'
        split_ifs <;> first | omega | tauto

/-- A call that returns TRUE has found a new tag, or there was none to find. -/
theorem undefinedCount_of_addFirstTag {n : ℕ} {definedTags definedTags' : List Tag} {t : ι}
    (h : m.addFirstTag n definedTags t = some (.ok definedTags')) :
    m.undefinedCount definedTags' < m.undefinedCount definedTags ∨
      definedTags' = definedTags ∧ m.Tagless t := by
  induction n generalizing definedTags definedTags' t with
  | zero => simp [addFirstTag] at h
  | succ n ih =>
      obtain ⟨k, front, hk, hf, hfront⟩ := exists_hasFront h
      cases hk
      rw [addFirstTag_eq, hf] at h
      cases front with
      | tag tag =>
          have hmem := mem_allTags_of_startsWith hfront rfl fun tag => mem_allTags
          by_cases hdef : isDefined definedTags tag = true
          · cases h.symm.trans (if_pos hdef)
          · cases h.symm.trans (if_neg hdef)
            exact .inl (undefinedCount_cons_lt hmem hdef)
      | bare =>
          cases h
          exact .inr ⟨rfl, .bare hfront⟩
      | choice elmts =>
          suffices hall : m.undefinedCount definedTags' < m.undefinedCount definedTags ∨
              definedTags' = definedTags ∧ ∀ e ∈ elmts, m.Tagless e by
            rcases hall with hlt | ⟨heq, hall⟩
            · exact .inl hlt
            · exact .inr ⟨heq, .choice hfront hall⟩
          clear hf hfront
          induction elmts generalizing definedTags with
          | nil =>
              cases h
              exact .inr ⟨rfl, by simp⟩
          | cons e es ihes =>
              simp only [Walk.forEach] at h
              cases hv : m.addFirstTag n definedTags e with
              | none => simp [hv] at h
              | some q =>
                  rw [hv] at h
                  cases q with
                  | error d => cases h
                  | ok d =>
                      rcases ih hv with hlt | ⟨rfl, hless⟩
                      · rcases ihes h with hlt' | ⟨rfl, -⟩
                        · exact .inl (hlt'.trans hlt)
                        · exact .inl hlt
                      · rcases ihes h with hlt' | ⟨rfl, hall⟩
                        · exact .inl hlt'
                        · refine .inr ⟨rfl, ?_⟩
                          rw [List.forall_mem_cons]
                          exact ⟨hless, hall⟩

theorem addFirstTag_terminates (hends : ∀ t, Acc (flip m.RefersTo) t)
    (hless : ∀ t, Acc (flip m.AfterTagless) t) (definedTags : List Tag) (t : ι) :
    ∃ n r, m.addFirstTag n definedTags t = some r := by
  induction hcount : m.undefinedCount definedTags using Nat.strong_induction_on
    generalizing definedTags t with
  | _ count ihcount =>
      induction hless t with
      | intro t _ ih =>
          obtain ⟨front, hfront⟩ := exists_startsWith (hends t) (m.type t).tags false
          obtain ⟨n, hf⟩ := exists_firstTag hfront
          have hmore {n' : ℕ} (hle : n ≤ n') := Walk.mono_of_succ
            (w := fun n => m.firstTag n t (m.type t).tags false)
            (fun n _ => firstTag_succ n) hle hf
          cases front with
          | tag tag =>
              by_cases hdef : isDefined definedTags tag = true
              · exact ⟨n + 1, .error definedTags, by
                  rw [addFirstTag_eq, hmore (Nat.le_succ n)]
                  exact if_pos hdef⟩
              · exact ⟨n + 1, .ok (tag :: definedTags), by
                  rw [addFirstTag_eq, hmore (Nat.le_succ n)]
                  exact if_neg hdef⟩
          | bare =>
              exact ⟨n + 1, .ok definedTags, by rw [addFirstTag_eq, hmore (Nat.le_succ n)]⟩
          | choice elmts =>
              have hmono : ∀ n n' s e r, n ≤ n' → m.addFirstTag n s e = some r →
                  m.addFirstTag n' s e = some r := fun n n' s e r hle hr =>
                Walk.mono_of_succ (w := fun n => m.addFirstTag n s e)
                  (fun n _ => addFirstTag_succ n) hle hr
              -- either a tag has been added, or nothing has been found so far
              have hvisits := Walk.forEach_terminates hmono (l := elmts)
                (I := fun pre s => m.undefinedCount s < count ∨
                  s = definedTags ∧ ∀ b ∈ pre, m.Tagless b) (s := definedTags) ?_
                (.inr ⟨rfl, by simp⟩)
              · obtain ⟨k, r, hr⟩ := hvisits
                refine ⟨max n k + 1, r, ?_⟩
                rw [addFirstTag_eq, hmore (by omega)]
                exact Walk.forEach_mono (fun s e r => hmono k _ s e r (le_max_right n k)) hr
              · intro pre e post s hall hI
                rcases hI with hlt | ⟨rfl, hpre⟩
                · obtain ⟨k, r, hr⟩ := ihcount _ hlt s e rfl
                  refine ⟨k, r, hr, ?_⟩
                  rintro s' rfl
                  rcases undefinedCount_of_addFirstTag hr with hlt' | ⟨rfl, -⟩
                  · exact .inl (hlt'.trans hlt)
                  · exact .inl hlt
                · obtain ⟨k, r, hr⟩ := ih e ⟨pre, post, hall ▸ hfront, hpre⟩
                  refine ⟨k, r, hr, ?_⟩
                  rintro s' rfl
                  rcases undefinedCount_of_addFirstTag hr with hlt' | ⟨rfl, hnone⟩
                  · exact .inl (hcount ▸ hlt')
                  · refine .inr ⟨rfl, ?_⟩
                    intro b hb
                    rcases List.mem_append.mp hb with hb | hb
                    · exact hpre b hb
                    · rw [List.mem_singleton.mp hb]
                      exact hnone

end Finite

/-! ### All the walks -/

/-- The walks terminate in every finite module whose links do not lead back, and in no
other. -/
theorem walksTerminate_iff (ι κ : Type) [Finite ι] [Finite κ] (m : TypeGraph ι κ) :
    m.WalksTerminate ↔ m.NoCircles := by
  constructor
  · intro h
    refine ⟨?_, ?_, ?_, ?_⟩
    · apply Walk.acyclic_of_acc
      intro t
      obtain ⟨n, r, hr⟩ := h.resolveImportedType t
      exact @resolveImportedType_acc _ _ _ t _ _ (Option.isSome_iff_exists.2 ⟨r, hr⟩)
    · apply Walk.acyclic_of_acc
      intro v
      obtain ⟨n, r, hr⟩ := h.getValue v
      exact getValue_acc (Option.isSome_iff_exists.2 ⟨r, hr⟩)
    · apply Walk.acyclic_of_acc
      intro t
      obtain ⟨n, r, hr⟩ := h.getTags t
      exact getTags_acc (Option.isSome_iff_exists.2 ⟨r, hr⟩)
    · apply Walk.acyclic_of_acc
      intro t
      obtain ⟨n, r, hr⟩ := h.addFirstTag [] t
      exact addFirstTag_acc (Option.isSome_iff_exists.2 ⟨r, hr⟩)
  · intro h
    have hends := h.refersTo.acc
    have hfinite := Fintype.ofFinite ι
    refine ⟨?_, ?_, ?_, ?_, ?_⟩
    · intro t
      obtain ⟨n, hn⟩ := resolveImportedType_terminates (hends t) t
      exact ⟨n, Option.isSome_iff_exists.1 hn⟩
    · intro v
      obtain ⟨n, hn⟩ := getValue_terminates (h.valueRefersTo.acc v)
      exact ⟨n, Option.isSome_iff_exists.1 hn⟩
    · intro t
      obtain ⟨n, hn⟩ := resolveImportedType_terminates (hends t) t
      refine ⟨n, Option.isSome_iff_exists.1 ?_⟩
      rwa [countTags, isSome_countTagsFrom t]
    · intro t
      obtain ⟨n, hn⟩ := getTags_terminates hends (h.afterTagged.acc t)
      exact ⟨n, Option.isSome_iff_exists.1 hn⟩
    · exact addFirstTag_terminates hends h.afterTagless.acc

/-- `A ::= B` and `B ::= A`. -/
def circularRefs : TypeGraph Bool Bool where
  type t := ⟨[], false, .typeRef (some !t)⟩
  value _ := .other

theorem circularRefs_walksTerminate_iff :
    circularRefs.WalksTerminate ↔ circularRefs.NoCircles :=
  walksTerminate_iff Bool Bool circularRefs

/-- The reference of `A` is followed for ever. -/
theorem not_walksTerminate : ¬ circularRefs.WalksTerminate := by
  intro h
  obtain ⟨n, r, hr⟩ := h.countTags false
  have hnever : ∀ n t tl implicitRef tagCount,
      circularRefs.countTagsFrom n t tl implicitRef tagCount = none := by
    intro n
    induction n with
    | zero => exact fun _ _ _ _ => rfl
    | succ n ih => exact fun t tl implicitRef tagCount => ih (!t) _ _ _
  rw [countTags, hnever] at hr
  cases hr

end TypeGraph

end Esnacc.Compiler
