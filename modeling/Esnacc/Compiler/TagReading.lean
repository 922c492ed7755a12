import Esnacc.Compiler.WalkTermination

/-!
What `GetTags` returns, as a relation without fuel. A type is read from an incoming reference
that is implicit or not; what is read are its tags and those behind it.
-/

namespace Esnacc.Compiler

namespace TypeGraph

variable {ι κ : Type} {g g' : TypeGraph ι κ}

/-- The tags from a type on, and what stands behind the last reference. -/
inductive Reads (g : TypeGraph ι κ) : ι → Bool → List Tag → BasicType ι → Prop
  | stop {t : ι} {imp : Bool} (h : ∀ u, (g.type t).basicType ≠ .typeRef (some u)) :
      Reads g t imp (g.enter t imp).1 (g.type t).basicType
  | link {t u : ι} {imp : Bool} {tags : List Tag} {b : BasicType ι}
      (h : (g.type t).basicType = .typeRef (some u))
      (hr : Reads g u (g.refIsImplicit t (g.enter t imp).2) tags b) :
      Reads g t imp ((g.enter t imp).1 ++ tags) b

@[simp] theorem enter_false (t : ι) : g.enter t false = ((g.type t).tags, false) := by
  simp [enter]

theorem enter_of_nil {t : ι} (h : (g.type t).tags = []) (imp : Bool) :
    g.enter t imp = ([], imp) := by
  simp [enter, h]

theorem enter_of_ne_nil {t : ι} (h : (g.type t).tags ≠ []) (imp : Bool) :
    g.enter t imp = (if imp then (g.type t).tags.tail else (g.type t).tags, false) := by
  cases imp <;> simp [enter, h]

theorem enter_congr {t : ι} (heq : g'.type t = g.type t) (imp : Bool) :
    g'.enter t imp = g.enter t imp := by
  rw [enter, enter, heq]

theorem refIsImplicit_congr {t : ι} (heq : g'.type t = g.type t) (imp : Bool) :
    g'.refIsImplicit t imp = g.refIsImplicit t imp := by
  rw [refIsImplicit, refIsImplicit, heq]

/-- A type that is the same in both graphs is read alike. -/
theorem Reads.stop_of {t : ι} (heq : g'.type t = g.type t)
    (h : ∀ u, (g.type t).basicType ≠ .typeRef (some u)) (imp : Bool) :
    g'.Reads t imp (g.enter t imp).1 (g.type t).basicType := by
  have hstop : g'.Reads t imp (g'.enter t imp).1 (g'.type t).basicType := .stop (heq ▸ h)
  rwa [heq, enter_congr heq] at hstop

theorem Reads.link_of {t u : ι} {imp : Bool} {tags : List Tag} {b : BasicType ι}
    (heq : g'.type t = g.type t) (h : (g.type t).basicType = .typeRef (some u))
    (hr : g'.Reads u (g.refIsImplicit t (g.enter t imp).2) tags b) :
    g'.Reads t imp ((g.enter t imp).1 ++ tags) b := by
  rw [← enter_congr heq] at hr ⊢
  refine .link (heq ▸ h) ?_
  rwa [refIsImplicit_congr heq]

/-- One graph reads as the other does if it does so type by type. `P` holds of the types at
hand. -/
theorem Reads.simulate {P : ι → Prop} {t : ι} {imp : Bool} {tags : List Tag} {b : BasicType ι}
    (h : g.Reads t imp tags b) (ht : P t)
    (hclosed : ∀ x u, P x → (g.type x).basicType = .typeRef (some u) → P u)
    (hstop : ∀ x imp, P x → (∀ u, (g.type x).basicType ≠ .typeRef (some u)) →
      g'.Reads x imp (g.enter x imp).1 (g.type x).basicType)
    (hlink : ∀ x u imp tags b, P x → (g.type x).basicType = .typeRef (some u) →
      g'.Reads u (g.refIsImplicit x (g.enter x imp).2) tags b →
      g'.Reads x imp ((g.enter x imp).1 ++ tags) b) : g'.Reads t imp tags b := by
  induction h with
  | stop h => exact hstop _ _ ht h
  | link h _ ih => exact hlink _ _ _ _ _ ht h (ih (hclosed _ _ ht h))

theorem collectTags_of_reads {t : ι} {imp : Bool} {tags : List Tag} {b : BasicType ι}
    (h : g.Reads t imp tags b) (retVal : List Tag) :
    ∃ n v, g.collectTags n t (g.enter t imp).1 (g.enter t imp).2 retVal =
      some (retVal ++ tags, v) ∧ (g.type v).basicType = b := by
  induction h generalizing retVal with
  | @stop t imp h =>
      refine ⟨1, t, ?_, rfl⟩
      rw [collectTags]
      split
      · next u hu => exact absurd hu (h u)
      · rfl
  | @link t u imp tags b h _ ih =>
      obtain ⟨n, v, hn, hv⟩ := ih (retVal ++ (g.enter t imp).1)
      refine ⟨n + 1, v, ?_, hv⟩
      rw [collectTags, h, ← List.append_assoc]
      exact hn

theorem reads_of_collectTags {n : ℕ} {t v : ι} {imp : Bool} {retVal tags : List Tag}
    (h : g.collectTags n t (g.enter t imp).1 (g.enter t imp).2 retVal = some (tags, v)) :
    ∃ rest, tags = retVal ++ rest ∧ g.Reads t imp rest (g.type v).basicType := by
  induction n generalizing t imp retVal with
  | zero => simp [collectTags] at h
  | succ n ih =>
      rw [collectTags] at h
      split at h
      · next u hu =>
          obtain ⟨rest, hrest, hreads⟩ := ih h
          exact ⟨(g.enter t imp).1 ++ rest, by rw [hrest, List.append_assoc], .link hu hreads⟩
      · next hno =>
          cases h
          exact ⟨_, rfl, .stop fun u hu => hno u hu⟩

/-- What is taken from the tags of an element of an untagged CHOICE. -/
def stolen (r : List Tag × Bool) : List Tag := if r.2 then r.1 else r.1.take 1

/-- There is something to take. -/
def Stealable (r : List Tag × Bool) : Prop := r.2 = true ∨ r.1 ≠ []

inductive Yields (g : TypeGraph ι κ) : ι → List Tag × Bool → Prop
  | tags {t : ι} {tags : List Tag} {b : BasicType ι} (h : g.Reads t false tags b)
      (hb : tags ≠ [] ∨ ∀ elmts, b ≠ .choice elmts) : Yields g t (tags, false)
  | choice {t : ι} {elmts : List ι} {r : ι → List Tag × Bool}
      (h : g.Reads t false [] (.choice elmts)) (hall : ∀ e ∈ elmts, Yields g e (r e))
      (hok : ∀ e ∈ elmts, Stealable (r e)) :
      Yields g t (elmts.flatMap fun e => stolen (r e), true)

theorem stealTags_ok {retVal : List Tag} {r : List Tag × Bool} (h : Stealable r) :
    stealTags retVal (some (.ok r)) = some (.ok (retVal ++ stolen r)) := by
  obtain ⟨tags, again⟩ := r
  cases again with
  | true => rfl
  | false =>
      have hne : tags ≠ [] := h.resolve_left (by simp)
      cases tags with
      | nil => exact absurd rfl hne
      | cons tag rest => rfl

theorem ok_of_stealTags {retVal out : List Tag}
    {q : Option (Except SnaccExit (List Tag × Bool))}
    (h : stealTags retVal q = some (.ok out)) :
    ∃ r, q = some (.ok r) ∧ Stealable r ∧ out = retVal ++ stolen r := by
  cases q with
  | none => simp [stealTags] at h
  | some q =>
      cases q with
      | error e => simp [stealTags] at h
      | ok r =>
          refine ⟨r, rfl, ?_⟩
          have hok : Stealable r := by
            obtain ⟨tags, again⟩ := r
            cases again with
            | true => exact .inl rfl
            | false =>
                refine .inr ?_
                rintro rfl
                simp [stealTags] at h
          rw [stealTags_ok hok] at h
          exact ⟨hok, (Except.ok.inj (Option.some.inj h)).symm⟩

theorem stealFrom_mono {n n' : ℕ} (hle : n ≤ n') {retVal : List Tag} {e : ι}
    {q : Except SnaccExit (List Tag)} (h : g.stealFrom n retVal e = some q) :
    g.stealFrom n' retVal e = some q := by
  cases hg : g.getTags n e with
  | none => simp [stealFrom, hg, stealTags] at h
  | some q' =>
      rw [stealFrom, Walk.mono_of_succ (w := fun n => g.getTags n e)
        (fun n _ => getTags_succ n) hle hg]
      rwa [stealFrom, hg] at h

/-- The elements of a CHOICE one after the other. -/
theorem forEach_stealFrom {elmts : List ι} {r : ι → List Tag × Bool}
    (h : ∀ e ∈ elmts, ∃ n, g.getTags n e = some (.ok (r e)))
    (hok : ∀ e ∈ elmts, Stealable (r e)) (retVal : List Tag) :
    ∃ n, Walk.forEach (g.stealFrom n) elmts retVal =
      some (.ok (retVal ++ elmts.flatMap fun e => stolen (r e))) := by
  induction elmts generalizing retVal with
  | nil => exact ⟨0, by simp [Walk.forEach]⟩
  | cons e es ih =>
      obtain ⟨n, hn⟩ := h e List.mem_cons_self
      obtain ⟨k, hk⟩ := ih (fun a ha => h a (List.mem_cons_of_mem _ ha))
        (fun a ha => hok a (List.mem_cons_of_mem _ ha)) (retVal ++ stolen (r e))
      have hvisit : g.stealFrom n retVal e = some (.ok (retVal ++ stolen (r e))) := by
        rw [stealFrom, hn, stealTags_ok (hok e List.mem_cons_self)]
      refine ⟨max n k, ?_⟩
      rw [Walk.forEach, stealFrom_mono (le_max_left n k) hvisit, List.flatMap_cons,
        ← List.append_assoc]
      exact Walk.forEach_mono (fun s a q hq => stealFrom_mono (le_max_right n k) hq) hk

theorem of_forEach_stealFrom {n : ℕ} {elmts : List ι} {retVal out : List Tag}
    (h : Walk.forEach (g.stealFrom n) elmts retVal = some (.ok out)) :
    ∃ r : ι → List Tag × Bool, (∀ e ∈ elmts, g.getTags n e = some (.ok (r e))) ∧
      (∀ e ∈ elmts, Stealable (r e)) ∧ out = retVal ++ elmts.flatMap fun e => stolen (r e) := by
  let r : ι → List Tag × Bool := fun e =>
    ((g.getTags n e).bind fun q => q.toOption).getD ([], false)
  refine ⟨r, ?_⟩
  induction elmts generalizing retVal with
  | nil =>
      cases h
      simp
  | cons e es ih =>
      rw [Walk.forEach] at h
      cases hv : g.stealFrom n retVal e with
      | none => simp [hv] at h
      | some q =>
          rw [hv] at h
          cases q with
          | error d => cases h
          | ok out' =>
              obtain ⟨re, hre, hok, rfl⟩ := ok_of_stealTags hv
              obtain ⟨hget, hoks, rfl⟩ := ih h
              have hr : r e = re := by
                simp [r, hre, Except.toOption]
              refine ⟨?_, ?_, ?_⟩
              · simpa [hr] using ⟨hre, hget⟩
              · simpa [hr] using ⟨hok, hoks⟩
              · simp [hr]

theorem getTags_eq (n : ℕ) (t : ι) : g.getTags (n + 1) t =
    match g.collectTags (n + 1) t (g.type t).tags false [] with
    | none => none
    | some (retVal, u) =>
        match (g.type u).basicType with
        | .choice elmts =>
            if retVal = [] then
              (Walk.forEach (g.stealFrom n) elmts retVal).map fun r =>
                r.map fun retVal => (retVal, true)
            else some (.ok (retVal, false))
        | _ => some (.ok (retVal, false)) := rfl

theorem yields_of_getTags {n : ℕ} {t : ι} {r : List Tag × Bool}
    (h : g.getTags n t = some (.ok r)) : g.Yields t r := by
  induction n generalizing t r with
  | zero => simp [getTags] at h
  | succ n ih =>
      rw [getTags_eq] at h
      cases hc : g.collectTags (n + 1) t (g.type t).tags false [] with
      | none => simp [hc] at h
      | some q =>
          obtain ⟨tags, u⟩ := q
          have hcollect : g.collectTags (n + 1) t (g.enter t false).1 (g.enter t false).2 [] =
              some (tags, u) := by
            simpa using hc
          obtain ⟨rest, hrest, hreads⟩ := reads_of_collectTags hcollect
          rw [List.nil_append] at hrest
          subst hrest
          rw [hc] at h
          cases hb : (g.type u).basicType with
          | choice elmts =>
              rw [hb] at hreads
              by_cases htags : tags = []
              · subst htags
                cases hf : Walk.forEach (g.stealFrom n) elmts [] with
                | none => simp [hb, hf] at h
                | some q =>
                    cases q with
                    | error e => simp [hb, hf, Except.map] at h
                    | ok out =>
                        obtain ⟨r', hget, hok, rfl⟩ := of_forEach_stealFrom hf
                        have hr : r = ([] ++ elmts.flatMap fun e => stolen (r' e), true) := by
                          simpa [hb, hf, Except.map] using h.symm
                        rw [hr, List.nil_append]
                        exact .choice hreads (fun e he => ih (hget e he)) hok
              · have hr : r = (tags, false) := by
                  simpa [hb, htags] using h.symm
                rw [hr]
                exact .tags hreads (.inl htags)
          | typeRef link =>
              rw [hb] at hreads
              have hr : r = (tags, false) := by
                simpa [hb] using h.symm
              rw [hr]
              exact .tags hreads (.inr fun elmts he => by cases he)
          | other =>
              rw [hb] at hreads
              have hr : r = (tags, false) := by
                simpa [hb] using h.symm
              rw [hr]
              exact .tags hreads (.inr fun elmts he => by cases he)

theorem collectTags_mono {n n' : ℕ} (hle : n ≤ n') {t : ι} {tl : List Tag} {imp : Bool}
    {retVal : List Tag} {q : List Tag × ι} (h : g.collectTags n t tl imp retVal = some q) :
    g.collectTags n' t tl imp retVal = some q := by
  induction n generalizing n' t tl imp retVal with
  | zero => simp [collectTags] at h
  | succ n ih =>
      cases n' with
      | zero => omega
      | succ n' =>
          rw [collectTags] at h ⊢
          split at h
          · exact ih (by omega) h
          · exact h

theorem getTags_of_yields {t : ι} {r : List Tag × Bool} (h : g.Yields t r) :
    ∃ n, g.getTags n t = some (.ok r) := by
  induction h with
  | @tags t tags b hreads hb =>
      obtain ⟨n, v, hn, hv⟩ := collectTags_of_reads hreads []
      rw [enter_false, List.nil_append] at hn
      refine ⟨n + 1, ?_⟩
      rw [getTags_eq, collectTags_mono (Nat.le_succ n) hn]
      cases hbv : (g.type v).basicType with
      | choice elmts =>
          have hne : tags ≠ [] := hb.resolve_right fun hno => hno elmts (hv ▸ hbv)
          simp [hbv, hne]
      | typeRef link => simp [hbv]
      | other => simp [hbv]
  | @choice t elmts r hreads _ hok ih =>
      obtain ⟨n, v, hn, hv⟩ := collectTags_of_reads hreads []
      rw [enter_false, List.nil_append] at hn
      obtain ⟨k, hk⟩ := forEach_stealFrom ih hok []
      refine ⟨max n k + 1, ?_⟩
      have hforEach : Walk.forEach (g.stealFrom (max n k)) elmts [] =
          some (.ok (elmts.flatMap fun e => stolen (r e))) := by
        refine Walk.forEach_mono (fun s a q hq => ?_) hk
        exact stealFrom_mono (le_max_right n k) hq
      rw [getTags_eq, collectTags_mono (by omega) hn]
      simp [hv, hforEach, Except.map]

theorem countTagsFrom_mono {n n' : ℕ} (hle : n ≤ n') {t : ι} {tl : List Tag} {imp : Bool}
    {tagCount k : ℕ} (h : g.countTagsFrom n t tl imp tagCount = some k) :
    g.countTagsFrom n' t tl imp tagCount = some k := by
  induction n generalizing n' t tl imp tagCount with
  | zero => simp [countTagsFrom] at h
  | succ n ih =>
      cases n' with
      | zero => omega
      | succ n' =>
          rw [countTagsFrom] at h ⊢
          split at h
          · exact ih (by omega) h
          · exact h

theorem countTags_unique {n n' k k' : ℕ} {t : ι} (h : g.countTags n t = some k)
    (h' : g.countTags n' t = some k') : k = k' :=
  Option.some.inj <| (countTagsFrom_mono (le_max_left n n') h).symm.trans
    (countTagsFrom_mono (le_max_right n n') h')

/-- Types that are read alike have the same tags. `P` holds of the types at hand. -/
theorem Yields.transfer {P : ι → Prop} {t : ι} {r : List Tag × Bool} (h : g.Yields t r) (ht : P t)
    (hreads : ∀ x, P x → ∀ imp tags b, g.Reads x imp tags b → g'.Reads x imp tags b)
    (helmts : ∀ x, P x → ∀ imp tags elmts, g.Reads x imp tags (.choice elmts) → ∀ e ∈ elmts, P e) :
    g'.Yields t r := by
  induction h with
  | tags h hb => exact .tags (hreads _ ht _ _ _ h) hb
  | choice h _ hok ih =>
      exact .choice (hreads _ ht _ _ _ h) (fun e he => ih e he (helmts _ ht _ _ _ h e he)) hok

end TypeGraph

end Esnacc.Compiler
