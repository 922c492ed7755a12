import Esnacc.Compiler.TypeGraph

/-!
When the walks over types and values terminate. Each of them keeps no account of the
types it has visited, so that it terminates exactly where the links it follows do not
lead back. What the walks for tags follow depends on what they have found before: an
element without tags ends `GetTags`, and a tag that is found again ends `AddFirstTag`.
-/

namespace Esnacc.Compiler

namespace TypeGraph

variable {ι κ : Type} {m : TypeGraph ι κ}

-- the equations of the walks are made here, once for all proofs that follow
attribute [local grind] resolveImportedTypeFrom getValue firstTag collectTags getTags addFirstTag

/-! ### Following references -/

theorem resolveImportedType_acc {start t : ι} {n : ℕ}
    (h : (m.resolveImportedTypeFrom start n t).isSome) : Acc (flip m.RefersTo) t := by
  apply Walk.acc_of_fuel (P := fun n t => (m.resolveImportedTypeFrom start n t).isSome) _ _ h
  · intro t
    simp [resolveImportedTypeFrom]
  · intro n t u hlink hsome
    rw [resolveImportedTypeFrom, show (m.type t).basicType = _ from hlink] at hsome
    exact hsome

theorem resolveImportedType_terminates {t : ι} (h : Acc (flip m.RefersTo) t) (start : ι) :
    ∃ n, (m.resolveImportedTypeFrom start n t).isSome := by
  induction h with
  | intro t _ ih =>
      cases hb : (m.type t).basicType with
      | typeRef link =>
          cases link with
          | none => exact ⟨1, by rw [resolveImportedTypeFrom, hb]; rfl⟩
          | some u =>
              obtain ⟨n, hn⟩ := ih u hb
              exact ⟨n + 1, by rwa [resolveImportedTypeFrom, hb]⟩
      | choice elmts => exact ⟨1, by rw [resolveImportedTypeFrom, hb]; rfl⟩
      | other => exact ⟨1, by rw [resolveImportedTypeFrom, hb]; rfl⟩

theorem getValue_acc {v : κ} {n : ℕ} (h : (m.getValue n v).isSome) :
    Acc (flip m.ValueRefersTo) v := by
  apply Walk.acc_of_fuel (P := fun n v => (m.getValue n v).isSome) _ _ h
  · intro v
    simp [getValue]
  · intro n v w hlink hsome
    rw [getValue, show m.value v = _ from hlink] at hsome
    exact hsome

theorem getValue_terminates {v : κ} (h : Acc (flip m.ValueRefersTo) v) :
    ∃ n, (m.getValue n v).isSome := by
  induction h with
  | intro v _ ih =>
      cases hv : m.value v with
      | valueRef link =>
          cases link with
          | none => exact ⟨1, by rw [getValue, hv]; rfl⟩
          | some w =>
              obtain ⟨n, hn⟩ := ih w hv
              exact ⟨n + 1, by rwa [getValue, hv]⟩
      | other => exact ⟨1, by rw [getValue, hv]; rfl⟩

/-- Counting tags takes as long as resolving the reference. -/
theorem isSome_countTagsFrom (start : ι) (n : ℕ) (t : ι) (tl : List Tag) (implicitRef : Bool)
    (tagCount : ℕ) : (m.countTagsFrom n t tl implicitRef tagCount).isSome =
      (m.resolveImportedTypeFrom start n t).isSome := by
  induction n generalizing t tl implicitRef tagCount with
  | zero => rfl
  | succ n ih =>
      rw [countTagsFrom, resolveImportedTypeFrom]
      cases (m.type t).basicType with
      | typeRef link =>
          cases link with
          | none => rfl
          | some u => exact ih u _ _ _
      | choice elmts => rfl
      | other => rfl

/-- So does collecting them. -/
theorem isSome_collectTags (start : ι) (n : ℕ) (t : ι) (tl : List Tag) (implicitRef : Bool)
    (retVal : List Tag) : (m.collectTags n t tl implicitRef retVal).isSome =
      (m.resolveImportedTypeFrom start n t).isSome := by
  induction n generalizing t tl implicitRef retVal with
  | zero => rfl
  | succ n ih =>
      rw [collectTags, resolveImportedTypeFrom]
      cases (m.type t).basicType with
      | typeRef link =>
          cases link with
          | none => rfl
          | some u => exact ih u _ _ _
      | choice elmts => rfl
      | other => rfl

/-! ### What a type starts with -/

theorem StartsWith.unique {t : ι} {tl : List Tag} {implicitRef : Bool} {front front' : Front ι}
    (h : m.StartsWith t tl implicitRef front) (h' : m.StartsWith t tl implicitRef front') :
    front = front' := by
  induction h with
  | tag => cases h'; rfl
  | choice _ hb =>
      cases h' with
      | choice _ hb' =>
          rw [hb] at hb'
          cases hb'
          rfl
      | other _ hb' => rw [hb] at hb'; cases hb'
      | unlinked _ hb' => rw [hb] at hb'; cases hb'
      | link hl _ => rw [RefersTo, hb] at hl; cases hl
  | other _ hb =>
      cases h' with
      | choice _ hb' => rw [hb] at hb'; cases hb'
      | other => rfl
      | unlinked => rfl
      | link hl _ => rw [RefersTo, hb] at hl; cases hl
  | unlinked _ hb =>
      cases h' with
      | choice _ hb' => rw [hb] at hb'; cases hb'
      | other => rfl
      | unlinked => rfl
      | link hl _ => rw [RefersTo, hb] at hl; cases hl
  | link hl _ ih =>
      cases h' with
      | choice _ hb' => rw [RefersTo, hb'] at hl; cases hl
      | other _ hb' => rw [RefersTo, hb'] at hl; cases hl
      | unlinked _ hb' => rw [RefersTo, hb'] at hl; cases hl
      | link hl' hfront' =>
          rw [RefersTo, hl] at hl'
          cases hl'
          exact ih hfront'

theorem exists_startsWith {t : ι} (h : Acc (flip m.RefersTo) t) (tl : List Tag)
    (implicitRef : Bool) : ∃ front, m.StartsWith t tl implicitRef front := by
  induction h generalizing tl implicitRef with
  | intro t _ ih =>
      cases tl with
      | cons tag tl => exact ⟨_, .tag t tag tl implicitRef⟩
      | nil =>
          cases hb : (m.type t).basicType with
          | typeRef link =>
              cases link with
              | none => exact ⟨_, .unlinked implicitRef hb⟩
              | some u =>
                  obtain ⟨front, hfront⟩ := ih u hb (m.enter u (m.refIsImplicit t implicitRef)).1
                    (m.enter u (m.refIsImplicit t implicitRef)).2
                  exact ⟨front, .link hb hfront⟩
          | choice elmts => exact ⟨_, .choice implicitRef hb⟩
          | other => exact ⟨_, .other implicitRef hb⟩

/-- The loop of `AddFirstTag` finds what the type starts with. -/
theorem exists_firstTag {t : ι} {tl : List Tag} {implicitRef : Bool} {front : Front ι}
    (h : m.StartsWith t tl implicitRef front) :
    ∃ n, m.firstTag n t tl implicitRef = some front := by
  induction h with
  | tag => exact ⟨1, rfl⟩
  | choice _ hb => exact ⟨1, by rw [firstTag, hb]⟩
  | other _ hb => exact ⟨1, by rw [firstTag, hb]⟩
  | unlinked _ hb => exact ⟨1, by rw [firstTag, hb]⟩
  | link hl _ ih =>
      obtain ⟨n, hn⟩ := ih
      refine ⟨n + 1, ?_⟩
      rw [firstTag, show (m.type _).basicType = _ from hl]
      exact hn

theorem startsWith_of_firstTag {n : ℕ} {t : ι} {tl : List Tag} {implicitRef : Bool}
    {front : Front ι} (h : m.firstTag n t tl implicitRef = some front) :
    m.StartsWith t tl implicitRef front := by
  induction n generalizing t tl implicitRef with
  | zero => simp [firstTag] at h
  | succ n ih =>
      cases tl with
      | cons tag tl =>
          cases h
          exact .tag t tag tl implicitRef
      | nil =>
          rw [firstTag] at h
          cases hb : (m.type t).basicType with
          | typeRef link =>
              cases link with
              | none =>
                  rw [hb] at h
                  cases h
                  exact .unlinked implicitRef hb
              | some u =>
                  rw [hb] at h
                  exact .link hb (ih h)
          | choice elmts =>
              rw [hb] at h
              cases h
              exact .choice implicitRef hb
          | other =>
              rw [hb] at h
              cases h
              exact .other implicitRef hb

theorem firstTag_succ (n : ℕ) {t : ι} {tl : List Tag} {implicitRef : Bool} {front : Front ι}
    (h : m.firstTag n t tl implicitRef = some front) :
    m.firstTag (n + 1) t tl implicitRef = some front := by
  induction n generalizing t tl implicitRef with
  | zero => simp [firstTag] at h
  | succ n ih =>
      cases tl with
      | cons tag tl => exact h
      | nil =>
          rw [firstTag] at h ⊢
          cases hb : (m.type t).basicType with
          | typeRef link =>
              rw [hb] at h
              cases link with
              | none => exact h
              | some u => exact ih h
          | choice elmts => rwa [hb] at h
          | other => rwa [hb] at h

/-! ### Collecting tags -/

theorem collectTags_succ (n : ℕ) {t : ι} {tl : List Tag} {implicitRef : Bool}
    {retVal : List Tag} {r : List Tag × ι} (h : m.collectTags n t tl implicitRef retVal = some r) :
    m.collectTags (n + 1) t tl implicitRef retVal = some r := by
  induction n generalizing t tl implicitRef retVal with
  | zero => simp [collectTags] at h
  | succ n ih =>
      rw [collectTags] at h ⊢
      cases hb : (m.type t).basicType with
      | typeRef link =>
          rw [hb] at h
          cases link with
          | none => exact h
          | some u => exact ih h
      | choice elmts => rwa [hb] at h
      | other => rwa [hb] at h

/-- The tags at hand stay in front of those that are found later. -/
theorem collectTags_append {n : ℕ} {t u : ι} {tl : List Tag} {implicitRef : Bool}
    {retVal tags : List Tag} (h : m.collectTags n t tl implicitRef retVal = some (tags, u)) :
    ∃ rest, tags = retVal ++ tl ++ rest := by
  induction n generalizing t tl implicitRef retVal with
  | zero => simp [collectTags] at h
  | succ n ih =>
      rw [collectTags] at h
      cases hb : (m.type t).basicType with
      | typeRef link =>
          rw [hb] at h
          cases link with
          | none =>
              cases h
              exact ⟨[], (List.append_nil _).symm⟩
          | some w =>
              obtain ⟨rest, hrest⟩ := ih h
              exact ⟨_, by rw [hrest, List.append_assoc]⟩
      | choice elmts =>
          rw [hb] at h
          cases h
          exact ⟨[], (List.append_nil _).symm⟩
      | other =>
          rw [hb] at h
          cases h
          exact ⟨[], (List.append_nil _).symm⟩

/-- What is collected from a type, by what it starts with. -/
def Collected (m : TypeGraph ι κ) (tags : List Tag) (u : ι) : Front ι → Prop
  | .tag _ => tags ≠ []
  | .choice elmts => tags = [] ∧ (m.type u).basicType = .choice elmts
  | .bare => tags = [] ∧ ∀ elmts, (m.type u).basicType ≠ .choice elmts

theorem collected_of_startsWith {t u : ι} {tl : List Tag} {implicitRef : Bool}
    {front : Front ι} (h : m.StartsWith t tl implicitRef front) {n : ℕ} {tags : List Tag}
    (hrun : m.collectTags n t tl implicitRef [] = some (tags, u)) :
    m.Collected tags u front := by
  induction h generalizing n with
  | tag t tag tl implicitRef =>
      obtain ⟨rest, hrest⟩ := collectTags_append hrun
      simp [Collected, hrest]
  | choice _ hb =>
      cases n with
      | zero => simp [collectTags] at hrun
      | succ n =>
          rw [collectTags, hb] at hrun
          cases hrun
          exact ⟨rfl, hb⟩
  | other _ hb =>
      cases n with
      | zero => simp [collectTags] at hrun
      | succ n =>
          rw [collectTags, hb] at hrun
          cases hrun
          exact ⟨rfl, by simp [hb]⟩
  | unlinked _ hb =>
      cases n with
      | zero => simp [collectTags] at hrun
      | succ n =>
          rw [collectTags, hb] at hrun
          cases hrun
          exact ⟨rfl, by simp [hb]⟩
  | link hl _ ih =>
      cases n with
      | zero => simp [collectTags] at hrun
      | succ n =>
          rw [collectTags, show (m.type _).basicType = _ from hl] at hrun
          exact ih hrun

/-! ### GetTags -/

/-- What `GetTags` adds for one element. -/
def stealFrom (m : TypeGraph ι κ) (n : ℕ) (retVal : List Tag) (e : ι) :
    Option (Except SnaccExit (List Tag)) := stealTags retVal (m.getTags n e)

/-- `GetTags` of an untagged CHOICE. -/
theorem getTags_choice {t : ι} {elmts : List ι} (h : m.HasFront t (.choice elmts)) {n : ℕ}
    {r : List Tag × ι}
    (hrun : m.collectTags (n + 1) t (m.type t).tags false [] = some r) :
    m.getTags (n + 1) t = (Walk.forEach (m.stealFrom n) elmts []).map
      fun r => r.map fun retVal => (retVal, true) := by
  obtain ⟨hnil, hu⟩ := collected_of_startsWith (u := r.2) h hrun
  rw [getTags, hrun]
  simp only [hu, hnil]
  rfl

/-- `GetTags` of any other type. -/
theorem getTags_done {t : ι} {front : Front ι} (h : m.HasFront t front)
    (hfront : ∀ elmts, front ≠ .choice elmts) {n : ℕ} {r : List Tag × ι}
    (hrun : m.collectTags (n + 1) t (m.type t).tags false [] = some r) :
    m.getTags (n + 1) t = some (.ok (r.1, false)) := by
  have hcollected := collected_of_startsWith (u := r.2) h hrun
  rw [getTags, hrun]
  cases front with
  | choice elmts => exact absurd rfl (hfront elmts)
  | tag tag =>
      have hne : ¬ r.1 = [] := hcollected
      cases hu : (m.type r.2).basicType <;> simp only [hu, if_neg hne]
  | bare =>
      obtain ⟨-, hu⟩ := hcollected
      cases hb : (m.type r.2).basicType with
      | choice elmts => exact absurd hb (hu elmts)
      | typeRef link => simp only [hb]
      | other => simp only [hb]

/-- `GetTags` returns only if the tags have been collected. -/
theorem exists_collectTags {n : ℕ} {t : ι} {r : Except SnaccExit (List Tag × Bool)}
    (h : m.getTags n t = some r) : ∃ k tags u, n = k + 1 ∧
      m.collectTags (k + 1) t (m.type t).tags false [] = some (tags, u) := by
  cases n with
  | zero => simp [getTags] at h
  | succ n =>
      rw [getTags] at h
      cases hrun : m.collectTags (n + 1) t (m.type t).tags false [] with
      | none => simp [hrun] at h
      | some r => exact ⟨n, r.1, r.2, rfl, hrun⟩

theorem getTags_succ (n : ℕ) {t : ι} {r : Except SnaccExit (List Tag × Bool)}
    (h : m.getTags n t = some r) : m.getTags (n + 1) t = some r := by
  induction n generalizing t r with
  | zero => simp [getTags] at h
  | succ n ih =>
      obtain ⟨k, tags, u, hk, hrun⟩ := exists_collectTags h
      cases hk
      rw [getTags, hrun] at h
      rw [getTags, collectTags_succ _ hrun]
      cases hb : (m.type u).basicType with
      | choice elmts =>
          simp only [hb] at h ⊢
          split_ifs at h ⊢ with hnil
          · obtain ⟨q, hq, hr⟩ := Option.map_eq_some_iff.1 h
            refine Option.map_eq_some_iff.2 ⟨q, ?_, hr⟩
            refine Walk.forEach_mono (fun retVal e q hq => ?_) hq
            cases he : m.getTags n e with
            | none => simp [he, stealTags] at hq
            | some r' =>
                rw [ih he]
                rwa [he] at hq
          · exact h
      | typeRef link => simpa only [hb] using h
      | other => simpa only [hb] using h

/-- The visit of an element that is tagged goes on to the next one. -/
theorem getTags_of_tagged {t : ι} (h : m.Tagged t) {n : ℕ}
    {r : Except SnaccExit (List Tag × Bool)} (hr : m.getTags n t = some r) (retVal : List Tag) :
    ∃ retVal', stealTags retVal (some r) = some (.ok retVal') := by
  induction h generalizing n r retVal with
  | tag hfront =>
      obtain ⟨k, tags, u, rfl, hrun⟩ := exists_collectTags hr
      have hne : tags ≠ [] := collected_of_startsWith hfront hrun
      rw [getTags_done hfront (by simp) hrun] at hr
      cases hr
      cases tags with
      | nil => exact absurd rfl hne
      | cons tag tl => exact ⟨retVal ++ [tag], rfl⟩
  | @choice t elmts hfront _ ih =>
      obtain ⟨k, tags, u, rfl, hrun⟩ := exists_collectTags hr
      rw [getTags_choice hfront hrun] at hr
      obtain ⟨q, hq, rfl⟩ := Option.map_eq_some_iff.1 hr
      have hall : ∀ e ∈ elmts, ∀ retVal r, m.stealFrom k retVal e = some r →
          ∃ retVal', r = .ok retVal' := by
        intro e he retVal r hr
        cases hg : m.getTags k e with
        | none => simp [stealFrom, hg, stealTags] at hr
        | some r' =>
            obtain ⟨retVal', hsteal⟩ := ih e he hg retVal
            rw [stealFrom, hg, hsteal] at hr
            cases hr
            exact ⟨retVal', rfl⟩
      obtain ⟨stolen, rfl⟩ := Walk.forEach_ok hall hq
      exact ⟨retVal ++ stolen, rfl⟩

/-- Where the visit goes on, the element is tagged. -/
theorem tagged_of_getTags (hends : ∀ t, Acc (flip m.RefersTo) t) {n : ℕ} {t : ι}
    {r : Except SnaccExit (List Tag × Bool)} (hr : m.getTags n t = some r)
    {retVal retVal' : List Tag} (h : stealTags retVal (some r) = some (.ok retVal')) :
    m.Tagged t := by
  induction n generalizing t r retVal retVal' with
  | zero => simp [getTags] at hr
  | succ n ih =>
      obtain ⟨front, hfront⟩ := exists_startsWith (hends t) (m.type t).tags false
      obtain ⟨k, tags, u, hk, hrun⟩ := exists_collectTags hr
      cases hk
      cases front with
      | tag tag => exact .tag hfront
      | bare =>
          obtain ⟨hnil, -⟩ := collected_of_startsWith hfront hrun
          rw [getTags_done hfront (by simp) hrun, hnil] at hr
          cases hr
          cases h
      | choice elmts =>
          rw [getTags_choice hfront hrun] at hr
          obtain ⟨q, hq, rfl⟩ := Option.map_eq_some_iff.1 hr
          cases q with
          | error e => cases h
          | ok stolen =>
              refine .choice hfront ?_
              intro e he
              obtain ⟨s₁, s₂, hvisit⟩ := Walk.visited_of_forEach hq he
              cases hg : m.getTags n e with
              | none => simp [stealFrom, hg, stealTags] at hvisit
              | some r' =>
                  rw [stealFrom, hg] at hvisit
                  exact ih hg hvisit

/-- `GetTags` visits every element of an untagged CHOICE that comes behind tagged ones. -/
theorem getTags_acc {n : ℕ} {t : ι} (h : (m.getTags n t).isSome) :
    Acc (flip m.AfterTagged) t := by
  apply Walk.acc_of_fuel (P := fun n t => (m.getTags n t).isSome) _ _ h
  · intro t
    simp [getTags]
  · intro n t e hnext hsome
    obtain ⟨pre, post, hfront, hpre⟩ := hnext
    obtain ⟨r, hr⟩ := Option.isSome_iff_exists.1 hsome
    obtain ⟨k, tags, u, hk, hrun⟩ := exists_collectTags hr
    cases hk
    rw [getTags_choice hfront hrun, Option.isSome_map] at hsome
    have hgoes : ∀ b ∈ pre, ∀ retVal r, True → m.stealFrom n retVal b = some r →
        ∃ retVal', r = .ok retVal' ∧ True := by
      intro b hb retVal r _ hr
      cases hg : m.getTags n b with
      | none => simp [stealFrom, hg, stealTags] at hr
      | some r' =>
          obtain ⟨retVal', hsteal⟩ := getTags_of_tagged (hpre b hb) hg retVal
          rw [stealFrom, hg, hsteal] at hr
          cases hr
          exact ⟨retVal', rfl, trivial⟩
    obtain ⟨retVal, -, hvisit⟩ := Walk.forEach_visits trivial hgoes hsome
    cases hg : m.getTags n e with
    | none => simp [stealFrom, hg, stealTags] at hvisit
    | some r' => rfl

theorem getTags_terminates (hends : ∀ t, Acc (flip m.RefersTo) t) {t : ι}
    (h : Acc (flip m.AfterTagged) t) : ∃ n, (m.getTags n t).isSome := by
  induction h with
  | intro t _ ih =>
      obtain ⟨front, hfront⟩ := exists_startsWith (hends t) (m.type t).tags false
      obtain ⟨n, hn⟩ := resolveImportedType_terminates (hends t) t
      have hcollect : (m.collectTags n t (m.type t).tags false []).isSome := by
        rwa [isSome_collectTags t]
      obtain ⟨r, hrun⟩ := Option.isSome_iff_exists.1 hcollect
      have hmore {n' : ℕ} (hle : n ≤ n') := Walk.mono_of_succ
        (w := fun n => m.collectTags n t (m.type t).tags false [])
        (fun n _ => collectTags_succ n) hle hrun
      by_cases hchoice : ∃ elmts, front = .choice elmts
      · obtain ⟨elmts, rfl⟩ := hchoice
        have hmono : ∀ n n' s e r, n ≤ n' → m.stealFrom n s e = some r →
            m.stealFrom n' s e = some r := by
          intro n n' s e r hle hr
          cases hg : m.getTags n e with
          | none => simp [stealFrom, hg, stealTags] at hr
          | some r' =>
              rw [stealFrom, Walk.mono_of_succ (w := fun n => m.getTags n e)
                (fun n _ => getTags_succ n) hle hg]
              rwa [stealFrom, hg] at hr
        -- as long as the visit goes on, the elements visited are tagged
        have hvisits := Walk.forEach_terminates hmono (l := elmts)
          (I := fun pre _ => ∀ b ∈ pre, m.Tagged b) (s := []) ?_ (by simp)
        · obtain ⟨k, q, hq⟩ := hvisits
          refine ⟨max n k + 1, ?_⟩
          rw [getTags_choice hfront (hmore (by omega)), Option.isSome_map,
            Walk.forEach_mono (fun s e r => hmono k _ s e r (le_max_right n k)) hq]
          rfl
        · intro pre e post retVal hall hpre
          obtain ⟨k, hk⟩ := ih e ⟨pre, post, hall ▸ hfront, hpre⟩
          obtain ⟨r', hg⟩ := Option.isSome_iff_exists.1 hk
          have hsome : ∃ q, stealTags retVal (some r') = some q := by
            cases r' with
            | error e => exact ⟨_, rfl⟩
            | ok p =>
                obtain ⟨tl, stole⟩ := p
                cases stole with
                | true => exact ⟨_, rfl⟩
                | false => cases tl <;> exact ⟨_, rfl⟩
          obtain ⟨q, hq⟩ := hsome
          refine ⟨k, q, by rw [stealFrom, hg, hq], ?_⟩
          rintro retVal' rfl b hb
          rcases List.mem_append.mp hb with hb | hb
          · exact hpre b hb
          · rw [List.mem_singleton.mp hb]
            exact tagged_of_getTags hends hg hq
      · refine ⟨n + 1, ?_⟩
        rw [getTags_done hfront (fun elmts he => hchoice ⟨elmts, he⟩) (hmore (Nat.le_succ n))]
        rfl

end TypeGraph

end Esnacc.Compiler
