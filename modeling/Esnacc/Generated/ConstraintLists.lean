import Esnacc.Generated.Constraints

/-!
When constraints are compiled faithfully: an intersection may hold one alternative that concerns
the list in question, all elements of it have to concern it, and each of them has to be one that
gets an entry with its own meaning.
-/

namespace Esnacc.Generated.Constraints

open BitString

/-! ### Constraints that are gathered completely -/

/-- The alternatives of an intersection, each with its elements. -/
def groups : Subtype → List (List SubtypeValue)
  | .single value => [[value]]
  | .or elmts => [singles elmts]
  | .and elmts => elmts.map alternative

/-- A union of elements that are no lists. -/
def IsUnion (elmts : List Subtype) : Prop :=
  elmts ≠ [] ∧ ∀ s ∈ elmts, ∃ value, s = .single value

/-- No list is passed over. -/
def Flat : Subtype → Prop
  | .single _ => True
  | .or elmts => IsUnion elmts
  | .and elmts => ∀ s ∈ elmts, (∃ value, s = .single value) ∨ ∃ es, s = .or es ∧ IsUnion es

/-- The elements that concern a list make up one alternative, if there are any. -/
structure Separate (concerns : SubtypeValue → Bool) (s : Subtype) : Prop where
  uniform : ∀ g ∈ groups s, (∀ v ∈ g, concerns v = true) ∨ ∀ v ∈ g, concerns v = false
  one : ((groups s).filter fun g => g.any concerns).length ≤ 1

/-- Nothing is lost or misread on the way to a list. -/
structure Direct (concerns : SubtypeValue → Bool) (kept : SubtypeValue → Prop) (s : Subtype) :
    Prop where
  flat : Flat s
  separate : Separate concerns s
  kept : ∀ v ∈ gathered s, concerns v = true → kept v

theorem gathered_eq (s : Subtype) : gathered s = (groups s).flatten := by
  cases s with
  | single value => rfl
  | or elmts => exact (List.append_nil _).symm
  | and elmts => exact List.flatMap_def ..

theorem holdsAny_iff {leaf : SubtypeValue → Prop} {elmts : List Subtype}
    (h : ∀ s ∈ elmts, ∃ value, s = .single value) :
    HoldsAny leaf elmts ↔ ∃ v ∈ singles elmts, leaf v := by
  induction elmts with
  | nil => simp [HoldsAny, singles]
  | cons s elmts ih =>
      obtain ⟨⟨value, rfl⟩, hrest⟩ := List.forall_mem_cons.mp h
      rw [HoldsAny, Holds, ih hrest]
      simp [singles]

theorem holdsAll_iff {leaf : SubtypeValue → Prop} {elmts : List Subtype} :
    HoldsAll leaf elmts ↔ ∀ s ∈ elmts, Holds leaf s := by
  induction elmts with
  | nil => simp [HoldsAll]
  | cons s elmts ih => rw [HoldsAll, ih, List.forall_mem_cons]

theorem holds_iff_groups {leaf : SubtypeValue → Prop} {s : Subtype} (h : Flat s) :
    Holds leaf s ↔ ∀ g ∈ groups s, ∃ v ∈ g, leaf v := by
  cases s with
  | single value => simp [Holds, groups]
  | or elmts =>
      rw [Holds, holdsAny_iff h.2]
      simp [groups]
  | and elmts =>
      rw [Holds, holdsAll_iff]
      simp only [groups, List.forall_mem_map]
      refine forall₂_congr fun s hs => ?_
      rcases h s hs with ⟨value, rfl⟩ | ⟨es, rfl, hes⟩
      · simp [Holds, alternative]
      · rw [Holds, holdsAny_iff hes.2]
        rfl

theorem singles_ne_nil {elmts : List Subtype} (h : IsUnion elmts) : singles elmts ≠ [] := by
  obtain ⟨hne, hall⟩ := h
  cases elmts with
  | nil => exact absurd rfl hne
  | cons s elmts =>
      obtain ⟨⟨value, rfl⟩, -⟩ := List.forall_mem_cons.mp hall
      simp [singles]

theorem ne_nil_of_mem_groups {s : Subtype} (h : Flat s) {g : List SubtypeValue}
    (hg : g ∈ groups s) : g ≠ [] := by
  cases s with
  | single value =>
      obtain rfl := List.mem_singleton.mp hg
      exact List.cons_ne_nil _ _
  | or elmts =>
      obtain rfl := List.mem_singleton.mp hg
      exact singles_ne_nil h
  | and elmts =>
      obtain ⟨s, hs, rfl⟩ := List.mem_map.mp hg
      rcases h s hs with ⟨value, rfl⟩ | ⟨es, rfl, hes⟩
      · exact List.cons_ne_nil _ _
      · exact singles_ne_nil hes

theorem eq_of_length_le_one {β : Type} {xs : List β} (h : xs.length ≤ 1) {a b : β} (ha : a ∈ xs)
    (hb : b ∈ xs) : a = b := by
  cases xs with
  | nil => cases ha
  | cons x xs =>
      obtain rfl := List.eq_nil_of_length_eq_zero (Nat.le_zero.mp (Nat.le_of_succ_le_succ h))
      rw [List.mem_singleton.mp ha, List.mem_singleton.mp hb]

/-- What does not concern the list has no say, so that the union of what does is the whole. -/
theorem holds_iff_concerned {concerns : SubtypeValue → Bool} {leaf : SubtypeValue → Prop}
    {s : Subtype} (hflat : Flat s) (hseparate : Separate concerns s)
    (hleaf : ∀ v, concerns v = false → leaf v) :
    Holds leaf s ↔ (gathered s).filter concerns = [] ∨
      ∃ v ∈ (gathered s).filter concerns, leaf v := by
  rw [holds_iff_groups hflat]
  have hmem : ∀ v, v ∈ (gathered s).filter concerns ↔
      ∃ g ∈ groups s, v ∈ g ∧ concerns v = true := by
    intro v
    rw [gathered_eq, List.mem_filter, List.mem_flatten]
    exact ⟨fun h => ⟨h.1.choose, h.1.choose_spec.1, h.1.choose_spec.2, h.2⟩,
      fun h => ⟨⟨h.choose, h.choose_spec.1, h.choose_spec.2.1⟩, h.choose_spec.2.2⟩⟩
  constructor
  · intro h
    by_cases hnone : (gathered s).filter concerns = []
    · exact Or.inl hnone
    · obtain ⟨v, hv⟩ := List.exists_mem_of_ne_nil _ hnone
      obtain ⟨g, hg, hvg, hconcerns⟩ := (hmem v).mp hv
      -- the group of an element that is concerned has one that holds, and it is concerned too
      obtain ⟨w, hw, hleafw⟩ := h g hg
      rcases hseparate.uniform g hg with hall | hnot
      · exact Or.inr ⟨w, (hmem w).mpr ⟨g, hg, hw, hall w hw⟩, hleafw⟩
      · rw [hnot v hvg] at hconcerns
        cases hconcerns
  · intro h g hg
    obtain ⟨v, hv⟩ := List.exists_mem_of_ne_nil _ (ne_nil_of_mem_groups hflat hg)
    rcases hseparate.uniform g hg with hall | hnot
    · -- the group is the one of the element that holds
      have hvmem : v ∈ (gathered s).filter concerns := (hmem v).mpr ⟨g, hg, hv, hall v hv⟩
      rcases h with hnone | ⟨w, hw, hleafw⟩
      · rw [hnone] at hvmem
        cases hvmem
      · obtain ⟨g', hg', hwg', hconcerns⟩ := (hmem w).mp hw
        have hin : g ∈ (groups s).filter fun g => g.any concerns :=
          List.mem_filter.mpr ⟨hg, List.any_eq_true.mpr ⟨v, hv, hall v hv⟩⟩
        have hin' : g' ∈ (groups s).filter fun g => g.any concerns :=
          List.mem_filter.mpr ⟨hg', List.any_eq_true.mpr ⟨w, hwg', hconcerns⟩⟩
        obtain rfl := eq_of_length_le_one hseparate.one hin hin'
        exact ⟨w, hwg', hleafw⟩
    · exact ⟨v, hv, hleaf v (hnot v hv)⟩

/-- A constraint that does not concern a list at all. -/
theorem holds_of_unconcerned {concerns : SubtypeValue → Bool} {leaf : SubtypeValue → Prop}
    {s : Subtype} (h : Direct concerns (fun _ => False) s)
    (hleaf : ∀ v, concerns v = false → leaf v) : Holds leaf s := by
  rw [holds_iff_concerned h.flat h.separate hleaf]
  left
  rw [List.filter_eq_nil_iff]
  exact fun v hv hconcerns => h.kept v hv hconcerns

/-! ### Lists of entries -/

section Entries

variable {E X : Type} {step : List E → SubtypeValue → Except Fault (List E)}
  {proper : E → Prop} {admits : E → X → Prop} {leaf : X → SubtypeValue → Prop}
  {concerns : SubtypeValue → Bool}

/-- An element that adds one proper entry with its own meaning. -/
def Enters (step : List E → SubtypeValue → Except Fault (List E)) (proper : E → Prop)
    (admits : E → X → Prop) (leaf : X → SubtypeValue → Prop) (v : SubtypeValue) : Prop :=
  ∃ r, proper r ∧ (∀ acc : List E, acc.length < 15 → step acc v = .ok (acc ++ [r])) ∧
    ∀ x, admits r x ↔ leaf x v

theorem foldlM_entries (hskip : ∀ acc v, concerns v = false → step acc v = .ok acc)
    {vs : List SubtypeValue}
    (henter : ∀ v ∈ vs, concerns v = true → Enters step proper admits leaf v)
    {acc : List E} (hlength : acc.length + (vs.filter concerns).length ≤ 15) :
    ∃ rs, vs.foldlM step acc = .ok (acc ++ rs) ∧ rs.length = (vs.filter concerns).length ∧
      (∀ r ∈ rs, proper r) ∧ ∀ x, (∃ r ∈ rs, admits r x) ↔ ∃ v ∈ vs.filter concerns, leaf x v := by
  induction vs generalizing acc with
  | nil => exact ⟨[], by rw [List.append_nil]; rfl, rfl, by simp, by simp⟩
  | cons v vs ih =>
      obtain ⟨hv, hvs⟩ := List.forall_mem_cons.mp henter
      rw [List.foldlM_cons]
      cases hconcerns : concerns v with
      | false =>
          rw [List.filter_cons_of_neg (by simp [hconcerns])] at hlength ⊢
          rw [hskip acc v hconcerns]
          exact ih hvs hlength
      | true =>
          rw [List.filter_cons_of_pos hconcerns, List.length_cons] at hlength
          -- there is room for the entry of this element and for those to come
          obtain ⟨r, hproper, hstep, hadmits⟩ := hv hconcerns
          have hroom : (acc ++ [r]).length + (vs.filter concerns).length ≤ 15 := by
            rw [List.length_append, List.length_singleton]
            omega
          obtain ⟨rs, hrun, hlen, hrs, hmeaning⟩ := ih hvs hroom
          rw [List.filter_cons_of_pos hconcerns, hstep acc (by omega)]
          refine ⟨r :: rs, ?_, by rw [List.length_cons, List.length_cons, hlen],
            List.forall_mem_cons.mpr ⟨hproper, hrs⟩, fun x => ?_⟩
          · rw [List.append_assoc] at hrun
            exact hrun
          · rw [List.exists_mem_cons_iff, List.exists_mem_cons_iff, hmeaning x, hadmits x]

/-- The list of a direct constraint. -/
theorem entries_of_direct {kept : SubtypeValue → Prop} {s : Subtype}
    (hdirect : Direct concerns kept s)
    (hcount : ((gathered s).filter concerns).length ≤ 15)
    (hskip : ∀ acc v, concerns v = false → step acc v = .ok acc)
    (hleaf : ∀ x v, concerns v = false → leaf x v)
    (henter : ∀ v, concerns v = true → kept v → Enters step proper admits leaf v) :
    ∃ rs, (gathered s).foldlM step [] = .ok rs ∧ (∀ r ∈ rs, proper r) ∧
      ∀ x, (rs = [] ∨ ∃ r ∈ rs, admits r x) ↔ Holds (leaf x) s := by
  obtain ⟨rs, hrun, hlen, hproper, hmeaning⟩ :=
    @foldlM_entries E X step proper admits leaf concerns hskip (gathered s)
      (fun v hv hconcerns => henter v hconcerns (hdirect.kept v hv hconcerns)) []
      (by simpa using hcount)
  refine ⟨rs, hrun, hproper, fun x => ?_⟩
  rw [holds_iff_concerned hdirect.flat hdirect.separate (hleaf x), hmeaning x,
    ← List.length_eq_zero_iff, ← List.length_eq_zero_iff, hlen]

end Entries

/-! ### Value ranges -/

/-- The elements that concern the value ranges, the sizes and the alphabet. -/
def isValue : SubtypeValue → Bool
  | .valueRange _ _ | .singleValue _ => true
  | .sizeConstraint _ | .permittedAlphabet _ => false

def isSize : SubtypeValue → Bool
  | .sizeConstraint _ => true
  | .valueRange _ _ | .singleValue _ | .permittedAlphabet _ => false

def isAlphabet : SubtypeValue → Bool
  | .permittedAlphabet _ => true
  | .valueRange _ _ | .singleValue _ | .sizeConstraint _ => false

/-- A literal, which must have a successor if it is exclusive. -/
def EndPoint.IsLower (e : EndPoint) : Prop :=
  ∃ n, e.endValue = .integer n ∧ (e.valueInclusive = true ∨ n + 1 < 2 ^ 31)

/-- An inclusive literal or MAX. -/
def EndPoint.IsUpper (e : EndPoint) : Prop :=
  (∃ n, e.endValue = .integer n ∧ e.valueInclusive = true) ∨ e.endValue = .special

def KeptValue : SubtypeValue → Prop
  | .valueRange lower upper => lower.IsLower ∧ upper.IsUpper
  | .singleValue value => ∃ n, value = .integer n
  | .sizeConstraint _ | .permittedAlphabet _ => False

theorem bound_lower {e : EndPoint} {n : ℤ} (hn : e.endValue = .integer n)
    (h : e.valueInclusive = true ∨ n + 1 < 2 ^ 31) :
    ∃ b, e.bound n = .ok b ∧ n ≤ b ∧ b ≤ n + 1 ∧ ∀ v, b ≤ v ↔ e.AtLeast v := by
  cases hinclusive : e.valueInclusive with
  | true =>
      refine ⟨n, ?_, le_refl n, by omega, fun v => ?_⟩
      · rw [EndPoint.bound, if_pos hinclusive]
      · simp [EndPoint.AtLeast, hn, hinclusive]
  | false =>
      have hroom : n + 1 < 2 ^ 31 := h.resolve_left (by rw [hinclusive]; decide)
      refine ⟨n + 1, ?_, by omega, le_refl _, fun v => ?_⟩
      · rw [EndPoint.bound, if_neg (by rw [hinclusive]; decide), addOne, if_pos hroom]
      · simp [EndPoint.AtLeast, hn, hinclusive]

theorem valueRangeStep_skip (acc : List ValueRange) (v : SubtypeValue) (h : isValue v = false) :
    valueRangeStep acc v = .ok acc := by
  cases v with
  | valueRange lower upper => cases h
  | singleValue value => cases h
  | sizeConstraint subtype => rfl
  | permittedAlphabet subtype => rfl

theorem permitsValue_of_not (x : ℤ) (v : SubtypeValue) (h : isValue v = false) :
    PermitsValue x v := by
  cases v with
  | valueRange lower upper => cases h
  | singleValue value => cases h
  | sizeConstraint subtype => trivial
  | permittedAlphabet subtype => trivial

theorem enters_value (v : SubtypeValue) (hv : isValue v = true) (hkept : KeptValue v) :
    Enters valueRangeStep (fun _ => True) ValueRange.Admits PermitsValue v := by
  cases v with
  | valueRange lower upper =>
      obtain ⟨⟨n, hn, hone⟩, hupper⟩ := hkept
      obtain ⟨b, hb, -, -, hlower⟩ := bound_lower hn hone
      rcases hupper with ⟨m, hm, hinclusive⟩ | hspecial
      · have hbound : upper.bound m = .ok m := if_pos hinclusive
        refine ⟨⟨b, m, .bounded⟩, trivial, fun acc hacc => ?_, fun x => ?_⟩
        · simp [valueRangeStep, hn, hm, hacc, hb, hbound, bind, Except.bind, pure, Except.pure]
        · simp [ValueRange.Admits, PermitsValue, hlower, EndPoint.AtMost, hm, hinclusive]
      · refine ⟨⟨b, 0, .missing⟩, trivial, fun acc hacc => ?_, fun x => ?_⟩
        · simp [valueRangeStep, hn, hspecial, hacc, hb, bind, Except.bind, pure, Except.pure]
        · simp [ValueRange.Admits, PermitsValue, hlower, EndPoint.AtMost, hspecial]
  | singleValue value =>
      obtain ⟨n, rfl⟩ := hkept
      exact ⟨⟨n, 0, .single⟩, trivial, fun acc hacc => if_pos hacc, fun x => Iff.rfl⟩
  | sizeConstraint subtype => cases hv
  | permittedAlphabet subtype => cases hv

theorem valuesCompiled_of_direct {s : Subtype} (h : Direct isValue KeptValue s)
    (hcount : ((gathered s).filter isValue).length ≤ 15) : ValuesCompiled s := by
  obtain ⟨ranges, hrun, -, hmeaning⟩ := entries_of_direct h hcount valueRangeStep_skip
    permitsValue_of_not enters_value
  exact ⟨ranges, hrun, hmeaning⟩

/-! ### Sizes -/

/-- A literal, or a reference if it is inclusive. -/
def EndPoint.IsSizeLower (e : EndPoint) : Prop :=
  ∃ n, 0 ≤ n ∧ n < 2 ^ 31 ∧
    (e.endValue = .integer n ∧ (e.valueInclusive = true ∨ n + 1 < 2 ^ 31) ∨
      e.endValue = .reference n ∧ e.valueInclusive = true)

/-- An inclusive literal up to 64k, or an inclusive reference. -/
def EndPoint.IsSizeUpper (e : EndPoint) : Prop :=
  ∃ n, 0 ≤ n ∧ n < 2 ^ 31 ∧ e.valueInclusive = true ∧
    (e.endValue = .integer n ∧ n ≤ 65536 ∨ e.endValue = .reference n)

def KeptSize : SubtypeValue → Prop
  | .sizeConstraint (.single (.valueRange lower upper)) => lower.IsSizeLower ∧ upper.IsSizeUpper
  | .sizeConstraint (.single (.singleValue value)) =>
      ∃ n, 0 ≤ n ∧ n < 2 ^ 31 ∧ (value = .integer n ∨ value = .reference n)
  | _ => False

theorem toUlong_eq {n : ℤ} (h₀ : 0 ≤ n) (h : n < 2 ^ 64) : (toUlong n : ℤ) = n := by
  rw [toUlong, Int.emod_eq_of_lt h₀ h, Int.toNat_of_nonneg h₀]

theorem sizeLowerBound_of_isSizeLower {e : EndPoint} (h : e.IsSizeLower) :
    ∃ b, sizeLowerBound e = .ok b ∧ 0 ≤ b ∧ b < 2 ^ 64 ∧ ∀ v, b ≤ v ↔ e.AtLeast v := by
  obtain ⟨n, h₀, hn, ⟨hvalue, hone⟩ | ⟨hvalue, hinclusive⟩⟩ := h
  · obtain ⟨b, hb, hle, hge, hmeaning⟩ := bound_lower hvalue hone
    refine ⟨b, ?_, by omega, by omega, hmeaning⟩
    rw [sizeLowerBound, hvalue]
    exact hb
  · refine ⟨n, ?_, h₀, by omega, fun v => ?_⟩
    · rw [sizeLowerBound, hvalue]
      rfl
    · simp [EndPoint.AtLeast, hvalue, hinclusive]

theorem sizeUpperBound_of_isSizeUpper {e : EndPoint} (h : e.IsSizeUpper) :
    ∃ b, sizeUpperBound e = .ok (some b) ∧ 0 ≤ b ∧ b < 2 ^ 64 ∧ ∀ v, v ≤ b ↔ e.AtMost v := by
  obtain ⟨n, h₀, hn, hinclusive, hvalue⟩ := h
  have hbound : e.bound n = .ok n := if_pos hinclusive
  refine ⟨n, ?_, h₀, by omega, fun v => ?_⟩
  · rcases hvalue with ⟨hvalue, hle⟩ | hvalue
    · simp [sizeUpperBound, hvalue, hle, hbound, Functor.map, Except.map]
    · simp [sizeUpperBound, hvalue, hbound, Functor.map, Except.map]
  · rcases hvalue with ⟨hvalue, hle⟩ | hvalue
    · simp [EndPoint.AtMost, hvalue, hinclusive]
    · simp [EndPoint.AtMost, hvalue, hinclusive]

theorem sizeStep_skip (acc : List SizeConstraint) (v : SubtypeValue) (h : isSize v = false) :
    sizeStep acc v = .ok acc := by
  cases v with
  | valueRange lower upper => rfl
  | singleValue value => rfl
  | sizeConstraint subtype => cases h
  | permittedAlphabet subtype => rfl

theorem permitsSize_of_not (x : ℕ) (v : SubtypeValue) (h : isSize v = false) :
    PermitsSize x v := by
  cases v with
  | valueRange lower upper => trivial
  | singleValue value => trivial
  | sizeConstraint subtype => cases h
  | permittedAlphabet subtype => trivial

/-- An entry with an upper bound. -/
def IsClosed (c : SizeConstraint) : Prop := c.upperBoundExists ≠ .missing

theorem enters_sizeRange {lower upper : EndPoint} (hlower : lower.IsSizeLower)
    (hupper : upper.IsSizeUpper) :
    Enters sizeStep IsClosed SizeConstraint.Admits PermitsSize
      (.sizeConstraint (.single (.valueRange lower upper))) := by
  obtain ⟨b, hb, hb₀, hb₁, hmeaningLower⟩ := sizeLowerBound_of_isSizeLower hlower
  obtain ⟨u, hu, hu₀, hu₁, hmeaningUpper⟩ := sizeUpperBound_of_isSizeUpper hupper
  refine ⟨⟨toUlong b, toUlong u, .bounded⟩, by simp [IsClosed], fun acc hacc => ?_, fun x => ?_⟩
  · have hroom : ¬ 15 ≤ acc.length := by omega
    simp [sizeStep, sizeEntry, hroom, hu, hb, bind, Except.bind, pure, Except.pure]
  · have hlo : toUlong b ≤ x ↔ lower.AtLeast x := by
      have hcast := toUlong_eq hb₀ hb₁
      rw [← hmeaningLower]
      omega
    have hhi : x ≤ toUlong u ↔ upper.AtMost x := by
      have hcast := toUlong_eq hu₀ hu₁
      rw [← hmeaningUpper]
      omega
    exact and_congr hlo hhi

theorem enters_singleSize {value : EndValue} {n : ℤ} (h₀ : 0 ≤ n) (hn : n < 2 ^ 31)
    (hvalue : value = .integer n ∨ value = .reference n) :
    Enters sizeStep IsClosed SizeConstraint.Admits PermitsSize
      (.sizeConstraint (.single (.singleValue value))) := by
  refine ⟨⟨toUlong n, 0, .single⟩, by simp [IsClosed], fun acc hacc => ?_, fun x => ?_⟩
  · have hroom : ¬ 15 ≤ acc.length := by omega
    rcases hvalue with rfl | rfl
    · exact if_neg hroom
    · exact if_neg hroom
  · have hsize : x = toUlong n ↔ (x : ℤ) = n := by
      have hcast := toUlong_eq h₀ (show n < 2 ^ 64 by omega)
      omega
    rcases hvalue with rfl | rfl
    · exact hsize
    · exact hsize

theorem enters_size (v : SubtypeValue) (hv : isSize v = true) (hkept : KeptSize v) :
    Enters sizeStep IsClosed SizeConstraint.Admits PermitsSize v := by
  cases v with
  | valueRange lower upper => cases hv
  | singleValue value => cases hv
  | permittedAlphabet subtype => cases hv
  | sizeConstraint subtype =>
      cases subtype with
      | and elmts => exact hkept.elim
      | or elmts => exact hkept.elim
      | single value =>
          cases value with
          | valueRange lower upper => exact enters_sizeRange hkept.1 hkept.2
          | singleValue value =>
              obtain ⟨n, h₀, hn, hvalue⟩ := hkept
              exact enters_singleSize h₀ hn hvalue
          | sizeConstraint subtype => exact hkept.elim
          | permittedAlphabet subtype => exact hkept.elim

theorem sizesCompiled_of_direct {s : Subtype} (h : Direct isSize KeptSize s)
    (hcount : ((gathered s).filter isSize).length ≤ 15) : SizesCompiled s := by
  obtain ⟨sizes, hrun, hclosed, hmeaning⟩ := entries_of_direct h hcount sizeStep_skip
    permitsSize_of_not enters_size
  -- one size without an upper bound would drop the whole list
  have hnone : (sizes.any fun c => c.upperBoundExists = .missing) = false := by
    rw [List.any_eq_false]
    intro c hc
    exact fun hmissing => hclosed c hc (of_decide_eq_true hmissing)
  refine ⟨sizes, ?_, hmeaning⟩
  rw [sizeConstraints, hrun]
  simp [bind, Except.bind, pure, Except.pure, hnone]

/-! ### Alphabets -/

/-- A text, or a range between the first characters of two, of characters below 128. -/
def KeptAlphabet : SubtypeValue → Prop
  | .permittedAlphabet (.single (.valueRange ⟨.text lower, true⟩ ⟨.text upper, true⟩)) =>
      (lower.headD 0).toNat ≤ (upper.headD 0).toNat ∧ (upper.headD 0).toNat < 128
  | .permittedAlphabet (.single (.singleValue (.text octs))) =>
      octs ≠ [] ∧ ∀ c ∈ octs, c.toNat < 128
  | _ => False

/-- An alphabet on the way: every character once, and none from 128 on. -/
structure IsAlphabet (alphabet : List Octet) : Prop where
  nodup : alphabet.Nodup
  ascii : ∀ c ∈ alphabet, c.toNat < 128

theorem IsAlphabet.length_le {alphabet : List Octet} (h : IsAlphabet alphabet) :
    alphabet.length ≤ 128 := by
  have hnodup : (alphabet.map BitVec.toNat).Nodup :=
    h.nodup.map fun a b hab => BitVec.eq_of_toNat_eq hab
  have hsub : alphabet.map BitVec.toNat ⊆ List.range 128 := by
    intro n hn
    obtain ⟨c, hc, rfl⟩ := List.mem_map.mp hn
    exact List.mem_range.mpr (h.ascii c hc)
  have hle := (hnodup.subperm hsub).length_le
  rwa [List.length_map, List.length_range] at hle

theorem foldlM_addCharacter {found : List Octet → Octet → Bool}
    (hfound : ∀ alphabet c, c.toNat < 128 → found alphabet c = decide (c ∈ alphabet))
    {cs : List Octet} (hcs : ∀ c ∈ cs, c.toNat < 128) {alphabet : List Octet}
    (h : IsAlphabet alphabet) :
    ∃ alphabet', cs.foldlM (fun a c => addCharacter (found a c) a c) alphabet = .ok alphabet' ∧
      IsAlphabet alphabet' ∧ ∀ o, o ∈ alphabet' ↔ o ∈ alphabet ∨ o ∈ cs := by
  induction cs generalizing alphabet with
  | nil => exact ⟨alphabet, rfl, h, by simp⟩
  | cons c cs ih =>
      obtain ⟨hc, hrest⟩ := List.forall_mem_cons.mp hcs
      rw [List.foldlM_cons, hfound alphabet c hc]
      by_cases hmem : c ∈ alphabet
      · obtain ⟨alphabet', hrun, halphabet', hmeaning⟩ := ih hrest h
        refine ⟨alphabet', ?_, halphabet', fun o => ?_⟩
        · rw [decide_eq_true hmem]
          exact hrun
        · rw [hmeaning o, List.mem_cons]
          constructor
          · exact Or.imp_right Or.inr
          · rintro (ho | rfl | ho)
            · exact Or.inl ho
            · exact Or.inl hmem
            · exact Or.inr ho
      · have hlength := h.length_le
        have hnext : IsAlphabet (alphabet ++ [c]) := by
          refine ⟨List.nodup_append'.mpr ⟨h.nodup, List.nodup_singleton c, ?_⟩, ?_⟩
          · exact List.disjoint_singleton.mpr hmem
          · intro a ha
            rcases List.mem_append.mp ha with ha | ha
            · exact h.ascii a ha
            · rw [List.mem_singleton.mp ha]
              exact hc
        obtain ⟨alphabet', hrun, halphabet', hmeaning⟩ := ih hrest hnext
        refine ⟨alphabet', ?_, halphabet', fun o => ?_⟩
        · rw [decide_eq_false hmem, addCharacter, if_neg (by decide), if_pos (by omega)]
          exact hrun
        · rw [hmeaning o, List.mem_append, List.mem_singleton, List.mem_cons, or_assoc]

/-- The characters between two. -/
theorem mem_between_iff {lower upper : ℕ} (hupper : upper < 128) (o : Octet) :
    o ∈ (List.range' lower (upper + 1 - lower)).map (BitVec.ofNat 8) ↔
      lower ≤ o.toNat ∧ o.toNat ≤ upper := by
  rw [List.mem_map]
  constructor
  · rintro ⟨n, hn, rfl⟩
    rw [List.mem_range'_1] at hn
    rw [BitVec.toNat_ofNat]
    omega
  · rintro ⟨hlower, hle⟩
    refine ⟨o.toNat, List.mem_range'_1.mpr ⟨hlower, by omega⟩, ?_⟩
    rw [BitVec.ofNat_toNat, BitVec.setWidth_eq]

theorem alphabetStep_skip (alphabet : List Octet) (v : SubtypeValue) (h : isAlphabet v = false) :
    alphabetStep alphabet v = .ok alphabet := by
  cases v with
  | valueRange lower upper => rfl
  | singleValue value => rfl
  | sizeConstraint subtype => rfl
  | permittedAlphabet subtype => cases h

theorem permitsCharacter_of_not (o : Octet) (v : SubtypeValue) (h : isAlphabet v = false) :
    PermitsCharacter o v := by
  cases v with
  | valueRange lower upper => trivial
  | singleValue value => trivial
  | sizeConstraint subtype => trivial
  | permittedAlphabet subtype => cases h

/-- An element that adds the characters it permits. -/
def AddsCharacters (v : SubtypeValue) : Prop :=
  (∃ o, PermitsCharacter o v) ∧ ∀ alphabet, IsAlphabet alphabet →
    ∃ alphabet', alphabetStep alphabet v = .ok alphabet' ∧ IsAlphabet alphabet' ∧
      ∀ o, o ∈ alphabet' ↔ o ∈ alphabet ∨ PermitsCharacter o v

theorem addsCharacters_range {lower upper : List Octet}
    (hle : (lower.headD 0).toNat ≤ (upper.headD 0).toNat) (hascii : (upper.headD 0).toNat < 128) :
    AddsCharacters
      (.permittedAlphabet (.single (.valueRange ⟨.text lower, true⟩ ⟨.text upper, true⟩))) := by
  have hpermits : ∀ o : Octet, PermitsCharacter o
      (.permittedAlphabet (.single (.valueRange ⟨.text lower, true⟩ ⟨.text upper, true⟩))) ↔
        (lower.headD 0).toNat ≤ o.toNat ∧ o.toNat ≤ (upper.headD 0).toNat := by
    intro o
    simp only [PermitsCharacter, Holds, PermitsLetter, EndPoint.AtLeast, EndPoint.AtMost, if_true]
    omega
  refine ⟨⟨lower.headD 0, (hpermits _).mpr ⟨le_refl _, hle⟩⟩, fun alphabet h => ?_⟩
  obtain ⟨alphabet', hrun, halphabet', hmeaning⟩ :=
    @foldlM_addCharacter (fun a c => decide (c ∈ a)) (fun _ _ _ => rfl)
      ((List.range' (lower.headD 0).toNat
        ((upper.headD 0).toNat + 1 - (lower.headD 0).toNat)).map (BitVec.ofNat 8))
      (fun c hc => by have := ((mem_between_iff hascii c).mp hc).2; omega) alphabet h
  refine ⟨alphabet', ?_, halphabet', fun o => ?_⟩
  · rw [List.foldlM_map] at hrun
    rw [alphabetStep, alphabetEntry, if_neg (by omega)]
    exact hrun
  · rw [hmeaning o, mem_between_iff hascii, hpermits]

theorem addsCharacters_text {octs : List Octet} (hne : octs ≠ [])
    (hascii : ∀ c ∈ octs, c.toNat < 128) :
    AddsCharacters (.permittedAlphabet (.single (.singleValue (.text octs)))) := by
  refine ⟨List.exists_mem_of_ne_nil _ hne, fun alphabet h => ?_⟩
  -- the text is gone through from its end
  obtain ⟨alphabet', hrun, halphabet', hmeaning⟩ :=
    @foldlM_addCharacter (fun a c => decide (c ∈ a ∧ c.toNat < 128))
      (fun a c hc => by simp [hc]) octs.reverse
      (fun c hc => hascii c (List.mem_reverse.mp hc)) alphabet h
  refine ⟨alphabet', hrun, halphabet', fun o => ?_⟩
  rw [hmeaning o, List.mem_reverse]
  rfl

theorem addsCharacters_of_kept (v : SubtypeValue) (hv : isAlphabet v = true)
    (hkept : KeptAlphabet v) : AddsCharacters v := by
  unfold KeptAlphabet at hkept
  split at hkept
  · exact addsCharacters_range hkept.1 hkept.2
  · exact addsCharacters_text hkept.1 hkept.2
  · exact hkept.elim

theorem foldlM_alphabetStep {vs : List SubtypeValue}
    (hadds : ∀ v ∈ vs, isAlphabet v = true → AddsCharacters v) {alphabet : List Octet}
    (h : IsAlphabet alphabet) :
    ∃ alphabet', vs.foldlM alphabetStep alphabet = .ok alphabet' ∧ IsAlphabet alphabet' ∧
      ∀ o, o ∈ alphabet' ↔ o ∈ alphabet ∨ ∃ v ∈ vs.filter isAlphabet, PermitsCharacter o v := by
  induction vs generalizing alphabet with
  | nil => exact ⟨alphabet, rfl, h, by simp⟩
  | cons v vs ih =>
      obtain ⟨hv, hvs⟩ := List.forall_mem_cons.mp hadds
      rw [List.foldlM_cons]
      cases hconcerns : isAlphabet v with
      | false =>
          rw [List.filter_cons_of_neg (by simp [hconcerns]), alphabetStep_skip alphabet v hconcerns]
          exact ih hvs h
      | true =>
          obtain ⟨alphabet₁, hstep, h₁, hmeaning₁⟩ := (hv hconcerns).2 alphabet h
          obtain ⟨alphabet', hrun, h', hmeaning'⟩ := ih hvs h₁
          rw [List.filter_cons_of_pos hconcerns, hstep]
          refine ⟨alphabet', hrun, h', fun o => ?_⟩
          rw [hmeaning' o, hmeaning₁ o, List.exists_mem_cons_iff, or_assoc]

/-- The text of an alphabet below 128 has room. -/
theorem textLength_lt {alphabet : List Octet} (h : IsAlphabet alphabet) :
    textLength alphabet < 1000 := by
  have hsum : (alphabet.map fun c => if c.toNat < 16 then 4 else 5).sum ≤ alphabet.length * 5 := by
    have hle := List.sum_le_card_nsmul (alphabet.map fun c => if c.toNat < 16 then 4 else 5) 5
      (by
        intro n hn
        obtain ⟨c, -, rfl⟩ := List.mem_map.mp hn
        split <;> omega)
    rwa [List.length_map, smul_eq_mul] at hle
  have hlength := h.length_le
  rw [textLength]
  omega

theorem alphabetCompiled_of_direct (characters : List Octet) {s : Subtype}
    (h : Direct isAlphabet KeptAlphabet s) : AlphabetCompiled characters s := by
  have hadds : ∀ v ∈ gathered s, isAlphabet v = true → AddsCharacters v :=
    fun v hv hconcerns => addsCharacters_of_kept v hconcerns (h.kept v hv hconcerns)
  obtain ⟨alphabet, hrun, halphabet, hmeaning⟩ :=
    @foldlM_alphabetStep (gathered s) hadds [] ⟨List.nodup_nil, by simp⟩
  have hperm := ExchangeSort.sort_perm BitVec.toNat alphabet
  refine ⟨ExchangeSort.sort BitVec.toNat alphabet, ?_, fun o _ => ?_⟩
  · rw [permittedAlphabet, hrun]
    have hroom : ¬ 1000 ≤ textLength alphabet := Nat.not_le.mpr (textLength_lt halphabet)
    simp [bind, Except.bind, pure, Except.pure, hroom]
  · -- every element that is concerned adds a character, so that no alphabet means no such element
    have hnil : ExchangeSort.sort BitVec.toNat alphabet = [] ↔
        (gathered s).filter isAlphabet = [] := by
      rw [← List.length_eq_zero_iff, hperm.length_eq, List.length_eq_zero_iff]
      constructor
      · intro hempty
        by_contra hsome
        obtain ⟨v, hv⟩ := List.exists_mem_of_ne_nil _ hsome
        obtain ⟨hmem, hconcerns⟩ := List.mem_filter.mp hv
        obtain ⟨c, hc⟩ := (hadds v hmem hconcerns).1
        have hin := (hmeaning c).mpr (Or.inr ⟨v, hv, hc⟩)
        rw [hempty] at hin
        cases hin
      · intro hnone
        refine List.eq_nil_iff_forall_not_mem.mpr fun c hc => ?_
        have hin := (hmeaning c).mp hc
        rw [hnone] at hin
        simp at hin
    rw [holds_iff_concerned h.flat h.separate (permitsCharacter_of_not o), hnil, hperm.mem_iff,
      hmeaning o]
    simp

/-! ### Constraints that are compiled faithfully -/

/-- The constraint meets none of the cases that are handled wrongly, and the lists have room. -/
def Handled : Kind → Subtype → Prop
  | .integer, s =>
      Direct isValue KeptValue s ∧ ((gathered s).filter isValue).length ≤ 15
  | .string _, s =>
      (Direct isSize KeptSize s ∧ ((gathered s).filter isSize).length ≤ 15) ∧
        Direct isAlphabet KeptAlphabet s
  | .otherString, s =>
      Direct isSize (fun _ => False) s ∧ Direct isAlphabet (fun _ => False) s
  | .bitsOrOctets, s =>
      Direct isSize KeptSize s ∧ ((gathered s).filter isSize).length ≤ 15

/-- `(0..10 | 20)` -/
def tenOrTwenty : Subtype :=
  .or [.single (.valueRange ⟨.integer 0, true⟩ ⟨.integer 10, true⟩),
    .single (.singleValue (.integer 20))]

end Esnacc.Generated.Constraints
