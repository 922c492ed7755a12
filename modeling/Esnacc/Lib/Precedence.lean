import Esnacc.Lib.Walk

/-!
Orders that put what a thing depends on before it. Things that depend on each other in a
knot of two or more cannot be put in such an order, and neither can those that lead to a
knot; a sorter that peels off what depends on nothing that is left takes all the others.
-/

namespace Precedence

open Relation

variable {ι : Type}

/-- The one stands before the other in the list. -/
def Before (l : List ι) (a b : ι) : Prop := [a, b].Sublist l

theorem Before.mono {l l' : List ι} {a b : ι} (h : Before l a b) (hsub : l.Sublist l') :
    Before l' a b := h.trans hsub

theorem Before.append_right {l : List ι} {a b : ι} (h : Before l a b) (l' : List ι) :
    Before (l ++ l') a b := h.mono (List.sublist_append_left l l')

theorem Before.append_left {l : List ι} {a b : ι} (h : Before l a b) (l' : List ι) :
    Before (l' ++ l) a b := h.mono (List.sublist_append_right l' l)

theorem before_append {l l' : List ι} {a b : ι} (ha : a ∈ l) (hb : b ∈ l') :
    Before (l ++ l') a b :=
  List.Sublist.append (List.singleton_sublist.2 ha) (List.singleton_sublist.2 hb)

theorem Before.mem_right {l : List ι} {a b : ι} (h : Before l a b) : b ∈ l :=
  h.subset (by simp)

/-- Where nothing occurs twice, only one of two things stands before the other. -/
theorem Before.asymm {l : List ι} (hl : l.Nodup) {a b : ι} (h : Before l a b) :
    ¬ Before l b a := by
  induction l with
  | nil => exact absurd h.mem_right List.not_mem_nil
  | cons x l ih =>
      intro h'
      have hx := (List.nodup_cons.1 hl).1
      cases h with
      | cons _ h =>
          cases h' with
          | cons _ h' => exact ih (List.nodup_cons.1 hl).2 h h'
          | cons_cons _ _ => exact hx (Before.mem_right h)
      | cons_cons _ h =>
          cases h' with
          | cons _ h' => exact hx (Before.mem_right h')
          | cons_cons _ _ => exact hx (List.singleton_sublist.1 h)

theorem before_or_before {l : List ι} {a b : ι} (ha : a ∈ l) (hb : b ∈ l) (hne : a ≠ b) :
    Before l a b ∨ Before l b a := by
  obtain ⟨xs, ys, rfl⟩ := List.append_of_mem ha
  rcases List.mem_append.1 hb with hb | hb
  · exact .inr (before_append hb (by simp))
  · have hb := (List.mem_cons.1 hb).resolve_left (Ne.symm hne)
    refine .inl (Before.append_left ?_ xs)
    exact List.Sublist.cons_cons a (List.singleton_sublist.2 hb)

/-- A part of a list keeps its order. -/
theorem before_iff_of_sublist {l l' : List ι} (hsub : l.Sublist l') (hl : l'.Nodup) {a b : ι}
    (ha : a ∈ l) (hb : b ∈ l) (hne : a ≠ b) : Before l a b ↔ Before l' a b := by
  constructor
  · intro h
    exact h.mono hsub
  · intro h
    rcases before_or_before ha hb hne with hab | hba
    · exact hab
    · exact absurd (hba.mono hsub) (h.asymm hl)

variable (R : ι → ι → Prop)

/-- The thing depends on something else that depends on it. -/
def InKnot (u : ι) : Prop := ∃ v, v ≠ u ∧ TransGen R u v ∧ TransGen R v u

def LeadsToKnot (x : ι) : Prop := ∃ u, ReflTransGen R x u ∧ InKnot R u

variable {R}

theorem InKnot.leads {u : ι} (h : InKnot R u) : LeadsToKnot R u := ⟨u, .refl, h⟩

theorem LeadsToKnot.head {x y : ι} (hxy : R x y) (h : LeadsToKnot R y) : LeadsToKnot R x := by
  obtain ⟨u, hu, hknot⟩ := h
  exact ⟨u, hu.head hxy, hknot⟩

theorem InKnot.mono {S : ι → ι → Prop} (hsub : ∀ a b, R a b → S a b) {u : ι}
    (h : InKnot R u) : InKnot S u := by
  obtain ⟨v, hne, huv, hvu⟩ := h
  exact ⟨v, hne, TransGen.mono hsub _ _ huv, TransGen.mono hsub _ _ hvu⟩

theorem LeadsToKnot.mono {S : ι → ι → Prop} (hsub : ∀ a b, R a b → S a b) {x : ι}
    (h : LeadsToKnot R x) : LeadsToKnot S x := by
  obtain ⟨u, hu, hknot⟩ := h
  exact ⟨u, ReflTransGen.mono hsub _ _ hu, hknot.mono hsub⟩

theorem LeadsToKnot.of_reaches {x y : ι} (hxy : ReflTransGen R x y) (h : LeadsToKnot R y) :
    LeadsToKnot R x := by
  obtain ⟨u, hu, hknot⟩ := h
  exact ⟨u, hxy.trans hu, hknot⟩

theorem LeadsToKnot.exists_step {x : ι} (h : LeadsToKnot R x) : ∃ y, R x y := by
  obtain ⟨u, hu, v, -, huv, -⟩ := h
  rcases ReflTransGen.cases_head hu with rfl | ⟨y, hxy, -⟩
  · obtain ⟨y, hxy, -⟩ := TransGen.head'_iff.1 huv
    exact ⟨y, hxy⟩
  · exact ⟨y, hxy⟩

/-- The dependencies among the members of a list. -/
def Among (R : ι → ι → Prop) (l : List ι) (a b : ι) : Prop := R a b ∧ a ∈ l ∧ b ∈ l

/-- A list that has all that leads to a knot has the way there. -/
theorem LeadsToKnot.among {l : List ι} (hl : ∀ a ∈ l, ∀ b, R a b → LeadsToKnot R b → b ∈ l)
    {x : ι} (hx : x ∈ l) (h : LeadsToKnot R x) : LeadsToKnot (Among R l) x := by
  have hway {a b : ι} (ha : a ∈ l) (hab : ReflTransGen R a b) (hb : LeadsToKnot R b) :
      ReflTransGen (Among R l) a b ∧ b ∈ l := by
    induction hab with
    | refl => exact ⟨.refl, ha⟩
    | @tail b c _ hbc ih =>
        obtain ⟨hab, hmem⟩ := ih (hb.head hbc)
        have hmem' := hl b hmem c hbc hb
        exact ⟨hab.tail ⟨hbc, hmem, hmem'⟩, hmem'⟩
  have hround {a b : ι} (ha : a ∈ l) (hab : TransGen R a b) (hb : LeadsToKnot R b) :
      TransGen (Among R l) a b := by
    obtain ⟨c, hac, hcb⟩ := TransGen.head'_iff.1 hab
    have hc := hl a ha c hac (hb.of_reaches hcb)
    exact .head' ⟨hac, ha, hc⟩ (hway hc hcb hb).1
  obtain ⟨u, hxu, hknot⟩ := h
  obtain ⟨hxu', hu⟩ := hway hx hxu hknot.leads
  obtain ⟨v, hne, huv, hvu⟩ := hknot
  have hvknot : LeadsToKnot R v := ⟨v, .refl, u, Ne.symm hne, hvu, huv⟩
  have hv := (hway hu huv.to_reflTransGen hvknot).2
  exact ⟨u, hxu', v, hne, hround hu huv hvknot, hround hv hvu ⟨u, .refl, v, hne, huv, hvu⟩⟩

/-- What a list falls into when everything that depends on nothing else of it, except on what
has been taken before, is taken from it in turn. -/
structure Peeled (R : ι → ι → Prop) (l out left : List ι) : Prop where
  perm : (out ++ left).Perm l
  sublist : left.Sublist l
  ordered : ∀ pre x post, out = pre ++ x :: post → ∀ y ∈ l, R x y → y ≠ x → y ∈ pre
  stuck : ∀ x ∈ left, ∃ y ∈ left, y ≠ x ∧ R x y

namespace Peeled

variable {l out left : List ι}

theorem mem_iff (h : Peeled R l out left) {x : ι} : x ∈ l ↔ x ∈ out ∨ x ∈ left := by
  rw [← h.perm.mem_iff, List.mem_append]

theorem before (h : Peeled R l out left) {x y : ι} (hx : x ∈ out) (hy : y ∈ l) (hxy : R x y)
    (hne : y ≠ x) : Before out y x := by
  obtain ⟨pre, post, hout⟩ := List.append_of_mem hx
  have hpre := h.ordered pre x post hout y hy hxy hne
  rw [hout]
  exact before_append hpre (by simp)

/-- With what is left put behind what has been taken, only things that are left can stand
before what they depend on: those that did so already. -/
theorem before_append_iff (h : Peeled R l out left) (hl : l.Nodup) {x y : ι} (hx : x ∈ l)
    (hy : y ∈ l) (hxy : R x y) (hne : y ≠ x) :
    Before (out ++ left) y x ↔ (y ∈ left → Before l y x) := by
  have hnodup := h.perm.nodup_iff.2 hl
  by_cases hyleft : y ∈ left
  · have hxleft : x ∈ left := by
      refine (h.mem_iff.1 hx).resolve_left fun hxout => ?_
      have hyout := (h.before hxout hy hxy hne).subset List.mem_cons_self
      exact (List.nodup_append.1 hnodup).2.2 y hyout y hyleft rfl
    have hsub : left.Sublist (out ++ left) := List.sublist_append_right out left
    rw [← before_iff_of_sublist hsub hnodup hyleft hxleft hne,
      before_iff_of_sublist h.sublist hl hyleft hxleft hne]
    exact ⟨fun hb _ => hb, fun hb => hb hyleft⟩
  · refine iff_of_true ?_ fun hy => absurd hy hyleft
    have hyout := (h.mem_iff.1 hy).resolve_right hyleft
    rcases h.mem_iff.1 hx with hxout | hxleft
    · exact (h.before hxout hy hxy hne).append_right left
    · exact Precedence.before_append hyout hxleft

/-- Taking goes on with what a first round has left. -/
theorem append {o o' l' : List ι} (hperm : (o ++ l').Perm l) (hsub : l'.Sublist l)
    (hord : ∀ pre x post, o = pre ++ x :: post → ∀ y ∈ l, R x y → y ≠ x → y ∈ pre)
    (h : Peeled R l' o' left) : Peeled R l (o ++ o') left where
  perm := by
    rw [List.append_assoc]
    exact (h.perm.append_left o).trans hperm
  sublist := h.sublist.trans hsub
  ordered := by
    intro pre x post heq y hy hxy hne
    rcases List.append_eq_append_iff.1 heq with ⟨as, hpre, hbs⟩ | ⟨bs, ho, hpost⟩
    · rw [hpre, List.mem_append]
      rw [← hperm.mem_iff, List.mem_append] at hy
      exact hy.imp id fun hy => h.ordered as x post hbs y hy hxy hne
    · cases bs with
      | nil =>
          have hmem : y ∈ o ∨ y ∈ l' := by rwa [← hperm.mem_iff, List.mem_append] at hy
          rw [List.append_nil] at ho
          rw [← ho]
          exact hmem.resolve_right fun hy => by
            simpa using h.ordered [] x post (by simpa using hpost.symm) y hy hxy hne
      | cons b bs =>
          rw [List.cons_append] at hpost
          obtain ⟨rfl, hpost⟩ := List.cons.inj hpost
          exact hord pre x bs ho y hy hxy hne
  stuck := h.stuck

/-- What has been taken in turn depends on nothing that has not. -/
theorem mem_of_reaches {out : List ι}
    (hord : ∀ pre x post, out = pre ++ x :: post → ∀ y, R x y → y ≠ x → y ∈ pre) {a b : ι}
    (ha : a ∈ out) (hab : ReflTransGen R a b) : b ∈ out := by
  induction hab with
  | refl => exact ha
  | @tail b c _ hbc ih =>
      by_cases hne : c = b
      · exact hne ▸ ih
      · obtain ⟨pre, post, hout⟩ := List.append_of_mem ih
        rw [hout]
        exact List.mem_append_left _ (hord pre b post hout c hbc hne)

/-- Nothing that has been taken in turn is in a knot. -/
theorem not_inKnot_of_ordered {out : List ι} (hnodup : out.Nodup)
    (hord : ∀ pre x post, out = pre ++ x :: post → ∀ y, R x y → y ≠ x → y ∈ pre) {u : ι}
    (hu : u ∈ out) : ¬ InKnot R u := by
  induction out using List.reverseRecOn with
  | nil => cases hu
  | append_singleton out x ih =>
      have hord' : ∀ pre z post, out = pre ++ z :: post → ∀ y, R z y → y ≠ z → y ∈ pre := by
        intro pre z post heq y hzy hne
        exact hord pre z (post ++ [x]) (by simp [heq]) y hzy hne
      have hnodup' := List.nodup_append.1 hnodup
      rintro ⟨v, hne, huv, hvu⟩
      rcases List.mem_append.1 hu with hu | hu
      · exact ih hnodup'.1 hord' hu ⟨v, hne, huv, hvu⟩
      · have hux : u = x := List.mem_singleton.1 hu
        subst hux
        -- the first step away from the last one leads to what has been taken before it
        have hv : v ∈ out := by
          clear hvu
          induction huv with
          | single huv => exact hord out u [] rfl _ huv hne
          | @tail b c _ hbc ihb =>
              by_cases hb : b = u
              · subst hb
                exact hord out b [] rfl _ hbc hne
              · exact mem_of_reaches hord' (ihb hb) (.single hbc)
        exact hnodup'.2.2 u (mem_of_reaches hord' hv hvu.to_reflTransGen) u (by simp) rfl

/-- What is left is what leads to a knot. -/
theorem mem_left_iff (h : Peeled R l out left) (hl : l.Nodup) {x : ι} :
    x ∈ left ↔ x ∈ l ∧ LeadsToKnot (Among R l) x := by
  have hin {y : ι} (hy : y ∈ left) : y ∈ l := h.sublist.subset hy
  constructor
  · intro hx
    refine ⟨hin hx, ?_⟩
    by_contra hnone
    -- without a knot the paths from `x` along what is left would all end
    let next : {y // y ∈ left} → {y // y ∈ left} → Prop := fun a b =>
      ReflTransGen (Among R l) x a ∧ b ≠ a ∧ R a b
    have hamong : ∀ a b, next a b → Among R l a b := by
      intro a b hab
      exact ⟨hab.2.2, hin a.2, hin b.2⟩
    have hacyclic : Walk.Acyclic next := by
      intro t hcycle
      obtain ⟨w, htw, hwt⟩ := TransGen.head'_iff.1 hcycle
      have hback : ReflTransGen (Among R l) w t := hwt.lift Subtype.val hamong
      have hne : (w : ι) ≠ t := fun heq => htw.2.1 (Subtype.ext heq)
      have hback' := (reflTransGen_iff_eq_or_transGen.1 hback).resolve_left (Ne.symm hne)
      exact hnone ⟨t, htw.1, w, hne, .single (hamong t w htw), hback'⟩
    have hfinite : Finite {y // y ∈ left} := (List.finite_toSet left).to_subtype
    have hends : ∀ t : {y // y ∈ left}, ¬ ReflTransGen (Among R l) x t := by
      intro t
      induction hacyclic.acc t with
      | intro t _ ih =>
          intro hreach
          obtain ⟨y, hy, hne, hR⟩ := h.stuck t t.2
          have hnext : next t ⟨y, hy⟩ := ⟨hreach, fun heq => hne (congrArg Subtype.val heq), hR⟩
          exact ih ⟨y, hy⟩ hnext (hreach.tail (hamong t ⟨y, hy⟩ hnext))
    exact hends ⟨x, hx⟩ .refl
  · rintro ⟨hx, u, hxu, hknot⟩
    refine (h.mem_iff.1 hx).resolve_left fun hx => ?_
    have hord : ∀ pre z post, out = pre ++ z :: post →
        ∀ y, Among R l z y → y ≠ z → y ∈ pre := by
      intro pre z post heq y hzy hne
      exact h.ordered pre z post heq y hzy.2.2 hzy.1 hne
    have hnodup := (List.nodup_append.1 (h.perm.nodup_iff.2 hl)).1
    exact not_inKnot_of_ordered hnodup hord (mem_of_reaches hord hx hxu) hknot

end Peeled

end Precedence
