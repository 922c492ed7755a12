import Mathlib

/-!
Encoders and decoders over a stream, as two judgments.

A stream is a state on which a writer appends symbols and from which a reader
takes them. What the state holds is described by two relations that the user
supplies: `W pre s` says that `pre` is everything written to `s` so far, and
`U p q s` says that the reader of `s` has consumed `p` symbols and that `q` is
what it has not read yet. `Emits` and `Takes` say what a program does to these
descriptions; both compose along `bind`, so a codec is proved by naming what
each of its calls appends or consumes. The positions matter because a codec may
pad to a boundary: what it emits is a function of how much was written before.
-/

namespace StreamCodec

variable {σ ε β α γ : Type}

/-- Started after `pre`, the writer `m` returns `a` and appends `xs`. -/
def Emits (W : List β → σ → Prop) (pre : List β) (m : StateT σ (Except ε) α) (a : α)
    (xs : List β) : Prop :=
  ∀ s, W pre s → ∃ s', m.run s = .ok (a, s') ∧ W (pre ++ xs) s'

/-- At position `p` the reader `m` returns `a` and consumes exactly `xs`,
whatever follows. -/
def Takes (U : ℕ → List β → σ → Prop) (p : ℕ) (xs : List β) (m : StateT σ (Except ε) α)
    (a : α) : Prop :=
  ∀ s rest, U p (xs ++ rest) s → ∃ s', m.run s = .ok (a, s') ∧ U (p + xs.length) rest s'

section Rules

variable {W : List β → σ → Prop} {U : ℕ → List β → σ → Prop}

theorem Emits.of_eq {pre xs ys : List β} {m : StateT σ (Except ε) α} {a b : α}
    (h : Emits W pre m a xs) (ha : a = b) (hxs : xs = ys) : Emits W pre m b ys := by
  rwa [ha, hxs] at h

theorem Takes.of_eq {p : ℕ} {xs ys : List β} {m : StateT σ (Except ε) α} {a b : α}
    (h : Takes U p xs m a) (ha : a = b) (hxs : xs = ys) : Takes U p ys m b := by
  rwa [ha, hxs] at h

theorem Emits.pure (pre : List β) (a : α) :
    Emits W pre (Pure.pure a : StateT σ (Except ε) α) a [] := by
  intro s hs
  exact ⟨s, rfl, by simpa using hs⟩

theorem Emits.bind {pre xs ys : List β} {m : StateT σ (Except ε) α}
    {f : α → StateT σ (Except ε) γ} {a : α} {c : γ} (hm : Emits W pre m a xs)
    (hf : Emits W (pre ++ xs) (f a) c ys) : Emits W pre (m >>= f) c (xs ++ ys) := by
  intro s hs
  obtain ⟨s₁, hrun₁, hs₁⟩ := hm s hs
  obtain ⟨s₂, hrun₂, hs₂⟩ := hf s₁ hs₁
  refine ⟨s₂, ?_, by simpa [List.append_assoc] using hs₂⟩
  rw [StateT.run_bind, hrun₁]
  exact hrun₂

theorem Takes.pure (p : ℕ) (a : α) : Takes U p [] (Pure.pure a : StateT σ (Except ε) α) a := by
  intro s rest hs
  exact ⟨s, rfl, by simpa using hs⟩

theorem Takes.bind {p : ℕ} {xs ys : List β} {m : StateT σ (Except ε) α}
    {f : α → StateT σ (Except ε) γ} {a : α} {c : γ} (hm : Takes U p xs m a)
    (hf : Takes U (p + xs.length) ys (f a) c) : Takes U p (xs ++ ys) (m >>= f) c := by
  intro s rest hs
  rw [List.append_assoc] at hs
  obtain ⟨s₁, hrun₁, hs₁⟩ := hm s (ys ++ rest) hs
  obtain ⟨s₂, hrun₂, hs₂⟩ := hf s₁ rest hs₁
  refine ⟨s₂, ?_, by simpa [Nat.add_assoc] using hs₂⟩
  rw [StateT.run_bind, hrun₁]
  exact hrun₂

theorem Emits.map {pre xs : List β} {m : StateT σ (Except ε) α} {a : α} (hm : Emits W pre m a xs)
    (f : α → γ) : Emits W pre (f <$> m) (f a) xs := by
  intro s hs
  obtain ⟨s', hrun, hs'⟩ := hm s hs
  refine ⟨s', ?_, hs'⟩
  rw [StateT.run_map, hrun]
  rfl

theorem Takes.map {p : ℕ} {xs : List β} {m : StateT σ (Except ε) α} {a : α}
    (hm : Takes U p xs m a) (f : α → γ) : Takes U p xs (f <$> m) (f a) := by
  intro s rest hs
  obtain ⟨s', hrun, hs'⟩ := hm s rest hs
  refine ⟨s', ?_, hs'⟩
  rw [StateT.run_map, hrun]
  rfl

theorem Emits.bind_pure {pre xs : List β} {m : StateT σ (Except ε) α} {a : α}
    (hm : Emits W pre m a xs) (f : α → γ) : Emits W pre (m >>= fun a => Pure.pure (f a)) (f a) xs :=
  (hm.bind (Emits.pure _ (f a))).of_eq rfl (List.append_nil xs)

theorem Takes.bind_pure {p : ℕ} {xs : List β} {m : StateT σ (Except ε) α} {a : α}
    (hm : Takes U p xs m a) (f : α → γ) : Takes U p xs (m >>= fun a => Pure.pure (f a)) (f a) :=
  (hm.bind (Takes.pure _ (f a))).of_eq rfl (List.append_nil xs)

/-- A reader may look at its state without consuming anything. -/
theorem Takes.bind_read {p : ℕ} {xs : List β} {f : σ → γ} {k : γ → StateT σ (Except ε) α} {a : α}
    (h : ∀ s rest, U p (xs ++ rest) s → Takes U p xs (k (f s)) a) :
    Takes U p xs ((fun s => .ok (f s, s) : StateT σ (Except ε) γ) >>= k) a := by
  intro s rest hs
  exact h s rest hs s rest hs

end Rules

theorem run_bind_of_ok {m : StateT σ (Except ε) α} {f : α → StateT σ (Except ε) γ} {s s' : σ}
    {a : α} (h : m.run s = .ok (a, s')) : (m >>= f).run s = (f a).run s' := by
  rw [StateT.run_bind, h]
  rfl

theorem run_bind_eq_ok {m : StateT σ (Except ε) α} {f : α → StateT σ (Except ε) γ} {s s' : σ}
    {c : γ} (h : (m >>= f).run s = .ok (c, s')) :
    ∃ a s₁, m.run s = .ok (a, s₁) ∧ (f a).run s₁ = .ok (c, s') := by
  rw [StateT.run_bind] at h
  cases hm : m.run s with
  | error e =>
      rw [hm] at h
      cases h
  | ok r =>
      rw [hm] at h
      exact ⟨r.1, r.2, rfl, h⟩

/-- The reader fails on every stream that begins with `xs`. -/
def Rejects (U : ℕ → List β → σ → Prop) (p : ℕ) (xs : List β) (m : StateT σ (Except ε) α) :
    Prop :=
  ∀ s rest, U p (xs ++ rest) s → ∃ e, m.run s = .error e

theorem Takes.bind_rejects {U : ℕ → List β → σ → Prop} {p : ℕ} {xs ys : List β}
    {m : StateT σ (Except ε) α} {f : α → StateT σ (Except ε) γ} {a : α} (hm : Takes U p xs m a)
    (hf : Rejects U (p + xs.length) ys (f a)) : Rejects U p (xs ++ ys) (m >>= f) := by
  intro s rest hs
  rw [List.append_assoc] at hs
  obtain ⟨s₁, hrun₁, hs₁⟩ := hm s (ys ++ rest) hs
  obtain ⟨e, he⟩ := hf s₁ rest hs₁
  refine ⟨e, ?_⟩
  rw [StateT.run_bind, hrun₁]
  exact he

/-- The decoder recovers what the encoder wrote after `pre`: it returns a value
that is `good`, consumes exactly the symbols written, and adds their number to
the count it is given. -/
def Recovers (W : List β → σ → Prop) (U : ℕ → List β → σ → Prop) (pre : List β)
    (enc : StateT σ (Except ε) γ) (dec : ℕ → StateT σ (Except ε) (α × ℕ)) (good : α → Prop) :
    Prop :=
  ∃ n xs a, Emits W pre enc n xs ∧ good a ∧
    ∀ count, Takes U pre.length xs (dec count) (a, count + xs.length)

theorem Recovers.imp {W : List β → σ → Prop} {U : ℕ → List β → σ → Prop} {pre : List β}
    {enc : StateT σ (Except ε) γ} {dec : ℕ → StateT σ (Except ε) (α × ℕ)} {good good' : α → Prop}
    (h : Recovers W U pre enc dec good) (himp : ∀ a, good a → good' a) :
    Recovers W U pre enc dec good' := by
  obtain ⟨n, xs, a, henc, ha, hdec⟩ := h
  exact ⟨n, xs, a, henc, himp a ha, hdec⟩

/-- Started after `pre`, the writer fails. -/
def Refuses (W : List β → σ → Prop) (pre : List β) (m : StateT σ (Except ε) α) : Prop :=
  ∀ s, W pre s → ∃ e, m.run s = .error e

/-- The descriptions determine what is written and what is unread, and every
description is that of a state. -/
structure Faithful (W : List β → σ → Prop) (U : ℕ → List β → σ → Prop) : Prop where
  written_unique : ∀ {pre pre' s}, W pre s → W pre' s → pre = pre'
  unread_unique : ∀ {p p' q q' s}, U p q s → U p' q' s → q = q'
  exists_written : ∀ pre, ∃ s, W pre s
  exists_unread : ∀ p q, ∃ s, U p q s

section Uniqueness

variable {W : List β → σ → Prop} {U : ℕ → List β → σ → Prop} (hF : Faithful W U)

include hF

theorem Emits.unique {pre xs xs' : List β} {m : StateT σ (Except ε) α} {a a' : α}
    (h : Emits W pre m a xs) (h' : Emits W pre m a' xs') : a = a' ∧ xs = xs' := by
  obtain ⟨s, hs⟩ := hF.exists_written pre
  obtain ⟨s₁, hrun₁, hs₁⟩ := h s hs
  obtain ⟨s₂, hrun₂, hs₂⟩ := h' s hs
  obtain ⟨rfl, rfl⟩ := Prod.mk.inj (Except.ok.inj (hrun₁.symm.trans hrun₂))
  exact ⟨rfl, List.append_cancel_left (hF.written_unique hs₁ hs₂)⟩

/-- What a reader takes has only one end. -/
theorem Takes.unique_append {p : ℕ} {xs ys : List β} {m : StateT σ (Except ε) α} {a a' : α}
    (h : Takes U p xs m a) (h' : Takes U p (xs ++ ys) m a') : a = a' ∧ ys = [] := by
  obtain ⟨s, hs⟩ := hF.exists_unread p (xs ++ ys ++ [])
  obtain ⟨s₁, hrun₁, hs₁⟩ := h s (ys ++ []) (by rwa [← List.append_assoc])
  obtain ⟨s₂, hrun₂, hs₂⟩ := h' s [] hs
  obtain ⟨rfl, rfl⟩ := Prod.mk.inj (Except.ok.inj (hrun₁.symm.trans hrun₂))
  exact ⟨rfl, by simpa using hF.unread_unique hs₁ hs₂⟩

theorem Takes.unique {p : ℕ} {xs : List β} {m : StateT σ (Except ε) α} {a a' : α}
    (h : Takes U p xs m a) (h' : Takes U p xs m a') : a = a' := by
  rw [← List.append_nil xs] at h'
  exact (Takes.unique_append hF h h').1

theorem Takes.not_rejects {p : ℕ} {xs : List β} {m : StateT σ (Except ε) α} {a : α}
    (h : Takes U p xs m a) : ¬ Rejects U p xs m := by
  intro hreject
  obtain ⟨s, hs⟩ := hF.exists_unread p (xs ++ [])
  obtain ⟨s₁, hrun, -⟩ := h s [] hs
  obtain ⟨e, he⟩ := hreject s [] hs
  cases hrun.symm.trans he

theorem Recovers.not_refuses {pre : List β} {enc : StateT σ (Except ε) γ}
    {dec : ℕ → StateT σ (Except ε) (α × ℕ)} {good : α → Prop}
    (h : Recovers W U pre enc dec good) : ¬ Refuses W pre enc := by
  intro hrefuse
  obtain ⟨n, xs, a, henc, -, -⟩ := h
  obtain ⟨s, hs⟩ := hF.exists_written pre
  obtain ⟨s', hrun, -⟩ := henc s hs
  obtain ⟨e, he⟩ := hrefuse s hs
  cases hrun.symm.trans he

/-- What the encoder emits settles what the decoder has to take. -/
theorem Recovers.iff_takes {pre xs : List β} {n : γ} {enc : StateT σ (Except ε) γ}
    {dec : ℕ → StateT σ (Except ε) (α × ℕ)} {good : α → Prop} (henc : Emits W pre enc n xs) :
    Recovers W U pre enc dec good ↔
      ∃ a, good a ∧ ∀ count, Takes U pre.length xs (dec count) (a, count + xs.length) := by
  constructor
  · rintro ⟨n', xs', a, henc', ha, htake⟩
    obtain ⟨-, rfl⟩ := Emits.unique hF henc henc'
    exact ⟨a, ha, htake⟩
  · rintro ⟨a, ha, htake⟩
    exact ⟨n, xs, a, henc, ha, htake⟩

/-- A decoder that takes what was written, but returns something else. -/
theorem Recovers.iff_good {pre xs : List β} {n : γ} {enc : StateT σ (Except ε) γ}
    {dec : ℕ → StateT σ (Except ε) (α × ℕ)} {good : α → Prop} {a : α}
    (henc : Emits W pre enc n xs)
    (hdec : ∀ count, Takes U pre.length xs (dec count) (a, count + xs.length)) :
    Recovers W U pre enc dec good ↔ good a := by
  rw [Recovers.iff_takes hF henc]
  constructor
  · rintro ⟨a', ha', htake⟩
    obtain ⟨rfl, -⟩ := Prod.mk.inj (Takes.unique hF (hdec 0) (htake 0))
    exact ha'
  · intro ha
    exact ⟨a, ha, hdec⟩

end Uniqueness

end StreamCodec
