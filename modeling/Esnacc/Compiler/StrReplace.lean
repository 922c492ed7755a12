import Esnacc.Lib.TextReplace

/-!
`str_replace` of str-util.c. It looks for the pattern from the beginning of the text again after
every replacement, so it also finds what a replacement has formed with the text around it.
-/

namespace Esnacc.Compiler

open TextReplace

/-- The first occurrence of `substr`. -/
def strstr (string substr : List Char) : Option ℕ :=
  (List.range (string.length + 1)).find? fun tok => OccursAt substr string tok

/-- `newstr` as the body of the loop makes it of `oldstr`. -/
def replaceTok (oldstr substr replacement : List Char) (tok : ℕ) : List Char :=
  oldstr.take tok ++ replacement ++ oldstr.drop (tok + substr.length)

/-- The loop, for as many rounds as there is fuel; memory is there for every copy. -/
def strReplaceLoop (substr replacement : List Char) : ℕ → List Char → Option (List Char)
  | 0, _ => none
  | fuel + 1, newstr =>
      match strstr newstr substr with
      | none => some newstr
      | some tok =>
          strReplaceLoop substr replacement fuel (replaceTok newstr substr replacement tok)

/-- `str_replace`: none when the fuel did not suffice. -/
def strReplace (fuel : ℕ) (string substr replacement : List Char) : Option (List Char) :=
  strReplaceLoop substr replacement fuel string

def getNakedCommentDupped (fuel : ℕ) (szString : List Char) : Option (List Char) :=
  strReplace fuel szString ['\\', 'n'] []

/-! ### Searching -/

theorem strstr_eq_some_iff {string substr : List Char} (hsubstr : substr ≠ []) {tok : ℕ} :
    strstr string substr = some tok ↔
      OccursAt substr string tok ∧ ∀ k < tok, ¬ OccursAt substr string k := by
  rw [strstr, List.find?_range_eq_some]
  simp only [decide_eq_true_eq, Bool.not_eq_true', decide_eq_false_iff_not, List.mem_range]
  constructor
  · rintro ⟨h, -, hfirst⟩
    exact ⟨h, hfirst⟩
  · rintro ⟨h, hfirst⟩
    refine ⟨h, ?_, hfirst⟩
    obtain ⟨y, z, rfl, rfl⟩ := h.exists_append hsubstr
    simp only [List.length_append]
    omega

theorem strstr_eq_none_iff {string substr : List Char} (hsubstr : substr ≠ []) :
    strstr string substr = none ↔ ∀ k, ¬ OccursAt substr string k := by
  constructor
  · intro h k hk
    obtain ⟨tok, -, htok, hfirst⟩ := exists_first_occurrence hk
    rw [(strstr_eq_some_iff hsubstr).mpr ⟨htok, hfirst⟩] at h
    cases h
  · intro h
    cases hfind : strstr string substr with
    | none => rfl
    | some tok => exact absurd ((strstr_eq_some_iff hsubstr).mp hfind).1 (h tok)

section Loop

variable {substr replacement : List Char}

theorem replaceTok_append (y z : List Char) :
    replaceTok (y ++ substr ++ z) substr replacement y.length = y ++ replacement ++ z := by
  rw [replaceTok, ← List.length_append, List.drop_left, List.append_assoc y substr z,
    List.take_left]

/-- One round. -/
theorem strReplaceLoop_replace (hsubstr : substr ≠ []) {y z : List Char}
    (hfirst : ∀ k < y.length, ¬ OccursAt substr (y ++ substr ++ z) k) (fuel : ℕ) :
    strReplaceLoop substr replacement (fuel + 1) (y ++ substr ++ z) =
      strReplaceLoop substr replacement fuel (y ++ replacement ++ z) := by
  rw [strReplaceLoop, (strstr_eq_some_iff hsubstr).mpr ⟨occursAt_append y substr z, hfirst⟩]
  dsimp only
  rw [replaceTok_append]

/-- What holds of the text that the loop returns, and of a text when it holds of the next one, holds
of the text that the loop is given. -/
theorem strReplaceLoop_induction (hsubstr : substr ≠ []) {P : List Char → Prop} {t : List Char}
    (hdone : (∀ k, ¬ OccursAt substr t k) → P t)
    (hround : ∀ y z, P (y ++ replacement ++ z) → P (y ++ substr ++ z)) {fuel : ℕ}
    {newstr : List Char} (h : strReplaceLoop substr replacement fuel newstr = some t) :
    P newstr := by
  induction fuel generalizing newstr with
  | zero => cases h
  | succ fuel ih =>
      cases hfind : strstr newstr substr with
      | none =>
          rw [strReplaceLoop, hfind] at h
          obtain rfl := Option.some.inj h
          exact hdone ((strstr_eq_none_iff hsubstr).mp hfind)
      | some tok =>
          obtain ⟨hoccurs, hfirst⟩ := (strstr_eq_some_iff hsubstr).mp hfind
          obtain ⟨y, z, rfl, rfl⟩ := hoccurs.exists_append hsubstr
          rw [strReplaceLoop_replace hsubstr hfirst] at h
          exact hround y z (ih h)

/-- What the loop returns does not contain the pattern. -/
theorem strReplaceLoop_not_occurs (hsubstr : substr ≠ []) {fuel : ℕ} {newstr t : List Char}
    (h : strReplaceLoop substr replacement fuel newstr = some t) :
    ∀ k, ¬ OccursAt substr t k :=
  strReplaceLoop_induction (P := fun _ => ∀ k, ¬ OccursAt substr t k) hsubstr id (fun _ _ => id) h

/-- A difference that the replacement makes stays. -/
theorem deviates_strReplaceLoop {a b : Char} {limit g p' r' : List Char} (hab : a ≠ b)
    (hsubstr : substr = g ++ a :: p') (hreplacement : replacement = g ++ b :: r') {fuel : ℕ}
    {newstr t : List Char} (h : Deviates a b limit newstr)
    (hloop : strReplaceLoop substr replacement fuel newstr = some t) : Deviates a b limit t := by
  have hne : substr ≠ [] := by simp [hsubstr]
  refine strReplaceLoop_induction (P := fun s => Deviates a b limit s → Deviates a b limit t) hne
    (fun _ => id) (fun y z hnext hdeviates => hnext ?_) hloop h
  rw [hsubstr] at hdeviates
  rw [hreplacement]
  exact hdeviates.replace hab

/-- With a replacement that is shorter, what the loop returns is shorter, or the text itself. -/
theorem eq_or_length_lt (hsubstr : substr ≠ []) (hlen : replacement.length < substr.length)
    {fuel : ℕ} {newstr t : List Char} (h : strReplaceLoop substr replacement fuel newstr = some t) :
    t = newstr ∨ t.length < newstr.length := by
  refine strReplaceLoop_induction (P := fun s => t = s ∨ t.length < s.length) hsubstr
    (fun _ => .inl rfl) (fun y z hnext => .inr ?_) h
  have hle : t.length ≤ (y ++ replacement ++ z).length := by
    rcases hnext with rfl | hlt
    · exact le_rfl
    · exact hlt.le
  simp only [List.length_append] at hle ⊢
  omega

/-- A replacement that is shorter than the pattern makes the loop end. -/
theorem exists_strReplaceLoop_eq (hsubstr : substr ≠ [])
    (hlen : replacement.length < substr.length) {fuel : ℕ} {newstr : List Char}
    (hfuel : newstr.length < fuel) :
    ∃ t, strReplaceLoop substr replacement fuel newstr = some t := by
  induction fuel generalizing newstr with
  | zero => exact absurd hfuel (Nat.not_lt_zero _)
  | succ fuel ih =>
      cases hfind : strstr newstr substr with
      | none => exact ⟨newstr, by rw [strReplaceLoop, hfind]⟩
      | some tok =>
          obtain ⟨hoccurs, hfirst⟩ := (strstr_eq_some_iff hsubstr).mp hfind
          obtain ⟨y, z, rfl, rfl⟩ := hoccurs.exists_append hsubstr
          rw [strReplaceLoop_replace hsubstr hfirst]
          apply ih
          simp only [List.length_append] at hfuel ⊢
          omega

/-- The first round replaces an occurrence that does not begin behind `v`. -/
theorem exists_first_replaced (hsubstr : substr ≠ []) {v z t : List Char} {fuel : ℕ}
    (h : strReplaceLoop substr replacement fuel (v ++ substr ++ z) = some t) :
    ∃ y y' fuel', y ++ substr ++ y' = v ++ substr ∧
      (∀ k < y.length, ¬ OccursAt substr (v ++ substr ++ z) k) ∧
      strReplaceLoop substr replacement fuel' (y ++ replacement ++ y' ++ z) = some t := by
  obtain ⟨i, hiv, hi, hfirst⟩ := exists_first_occurrence (occursAt_append v substr z)
  have hin : OccursAt substr (v ++ substr) i :=
    hi.of_le (List.prefix_append _ _) (by rw [List.length_append]; omega)
  obtain ⟨y, y', hy, rfl⟩ := hin.exists_append hsubstr
  cases fuel with
  | zero => cases h
  | succ fuel =>
      refine ⟨y, y', fuel, hy.symm, hfirst, ?_⟩
      rw [hy, List.append_assoc] at h hfirst
      rwa [strReplaceLoop_replace hsubstr hfirst, ← List.append_assoc] at h

/-! ### The code and the head -/

/-- One step of the head that finds no joint match is made by the loop, or leaves the text as it
is. -/
theorem strReplaceLoop_scan (hsubstr : substr ≠ []) {st : List Char × List Char}
    (hclean : ¬ JointMatch substr st) :
    (scan substr replacement st).1 ++ (scan substr replacement st).2 = st.1 ++ st.2 ∨
      ∀ fuel, strReplaceLoop substr replacement (fuel + 1) (st.1 ++ st.2) =
        strReplaceLoop substr replacement fuel
          ((scan substr replacement st).1 ++ (scan substr replacement st).2) := by
  obtain ⟨w, v⟩ := st
  cases v with
  | nil => exact .inl rfl
  | cons c v =>
      by_cases hfirst : substr <+: c :: v
      · right
        intro fuel
        rw [scan_replace hsubstr hfirst]
        obtain ⟨z, hz⟩ := hfirst
        rw [JointMatch] at hclean
        push Not at hclean
        rw [← hz, List.drop_left, ← List.append_assoc] at *
        exact strReplaceLoop_replace hsubstr hclean fuel
      · left
        rw [scan_copy hfirst]
        simp

/-- The pattern never occurs in a way that the head does not see. -/
def NoJointMatch (string substr replacement : List Char) : Prop :=
  ∀ n ≤ string.length, ¬ JointMatch substr (scanned substr replacement string n)

instance (string substr replacement : List Char) :
    Decidable (NoJointMatch string substr replacement) := by
  unfold NoJointMatch
  infer_instance

/-- It terminates and returns the textbook's text. -/
def ReplacesAll (string substr replacement : List Char) : Prop :=
  ∃ fuel, strReplace fuel string substr replacement =
    some (replaceAll substr replacement string)

/-- As long as the head finds no joint match, what the loop returns for the text is what it
returns for the text as the head has it. -/
theorem loop_scanned_iff (hsubstr : substr ≠ []) {string t : List Char} {n : ℕ}
    (hclean : ∀ m < n, ¬ JointMatch substr (scanned substr replacement string m)) :
    (∃ fuel, strReplaceLoop substr replacement fuel string = some t) ↔
      ∃ fuel, strReplaceLoop substr replacement fuel
        ((scanned substr replacement string n).1 ++
          (scanned substr replacement string n).2) = some t := by
  induction n with
  | zero => rfl
  | succ n ih =>
      rw [ih fun m hm => hclean m (Nat.lt_succ_of_lt hm), scanned_succ]
      rcases @strReplaceLoop_scan _ replacement hsubstr _ (hclean n (Nat.lt_succ_self n)) with
        hsame | hround
      · rw [hsame]
      · constructor
        · rintro ⟨fuel, hfuel⟩
          cases fuel with
          | zero => cases hfuel
          | succ fuel => exact ⟨fuel, (hround fuel).symm.trans hfuel⟩
        · rintro ⟨fuel, hfuel⟩
          exact ⟨fuel + 1, (hround fuel).trans hfuel⟩

theorem replaces_of_noJointMatch (hsubstr : substr ≠ []) {string : List Char}
    (h : NoJointMatch string substr replacement) : ReplacesAll string substr replacement := by
  have hend := scanned_end (r := replacement) hsubstr string
  refine (loop_scanned_iff hsubstr fun m hm => h m hm.le).mpr ⟨1, ?_⟩
  rw [hend, List.append_nil, strReplaceLoop, (strstr_eq_none_iff hsubstr).mpr]
  · rfl
  · intro k hk
    have hclean := h string.length le_rfl
    rw [JointMatch, hend, List.append_nil] at hclean
    obtain ⟨x, y, hxy, rfl⟩ := hk.exists_append hsubstr
    refine hclean ⟨x.length, ?_, hk⟩
    have := List.length_pos_iff.mpr hsubstr
    rw [hxy]
    simp only [List.length_append]
    omega

/-- A pattern that does not overlap itself, or a replacement that is not both a proper beginning
and a proper end of the pattern. -/
def Revealing (substr replacement : List Char) : Prop :=
  Unbordered substr ∨ ¬ (replacement <+: substr ∧ replacement <:+ substr) ∨ replacement = substr

section Missed

variable {x z t : List Char} {i : ℕ}

/-- The loop replaces an earlier occurrence than the one behind `x`, where the replacement differs
from the pattern: there its text differs for ever from one that keeps `x`. -/
theorem strReplaceLoop_ne_of_difference (hi : OccursAt substr (x ++ substr ++ z) i)
    (hlt : i < x.length) (hfront : x ++ replacement <+: t) {g p' r' : List Char} {a b : Char}
    (hab : a ≠ b) (hsubstr : substr = g ++ a :: p') (hreplacement : replacement = g ++ b :: r')
    (fuel : ℕ) : strReplaceLoop substr replacement fuel (x ++ substr ++ z) ≠ some t := by
  intro hloop
  have hne : substr ≠ [] := by simp [hsubstr]
  obtain ⟨y, y', fuel', hy, hbefore, hloop⟩ := exists_first_replaced hne hloop
  have hyx : y.length < x.length := by
    by_contra hle
    exact hbefore i (by omega) hi
  have hlimit : y ++ g ++ [a] <+: t := by
    have hold : y ++ g ++ [a] <+: x ++ substr := ⟨p' ++ y', by rw [← hy, hsubstr]; simp⟩
    have hx : x ++ g <+: x ++ substr := ⟨a :: p', by rw [hsubstr]; simp⟩
    have hinside : y ++ g ++ [a] <+: x ++ g := by
      refine List.prefix_of_prefix_length_le hold hx ?_
      simp only [List.length_append, List.length_singleton]
      omega
    exact (hinside.trans ⟨b :: r', by rw [hreplacement]; simp⟩).trans hfront
  have hdeviates : Deviates a b (y ++ g ++ [a]) (y ++ replacement ++ y' ++ z) :=
    ⟨y ++ g, List.prefix_rfl, r' ++ y' ++ z, by rw [hreplacement]; simp⟩
  have hreturned := deviates_strReplaceLoop hab hsubstr hreplacement hdeviates hloop
  exact hreturned.not_isPrefix hab hlimit

/-- The loop and the head bring different texts, of which the same is left, to the same end only
if they are the same, when the replacement is shorter than the pattern and ends otherwise. -/
theorem eq_of_iterate_scan (hlen : replacement.length < substr.length) {g p' r' : List Char}
    {a b : Char} (hab : a ≠ b) (hsubstr : substr = p' ++ a :: g)
    (hreplacement : replacement = r' ++ b :: g) {m : ℕ} {v w rest : List Char} {fuel : ℕ}
    (hscan : (scan substr replacement)^[m] (w, rest) = (t, [])) (hvw : v.length = w.length)
    (hloop : strReplaceLoop substr replacement fuel (v ++ rest) = some t) : v = w := by
  have hne : substr ≠ [] := by simp [hsubstr]
  induction m generalizing v w rest fuel with
  | zero =>
      obtain ⟨rfl, rfl⟩ := Prod.mk.inj hscan
      rw [List.append_nil] at hloop
      rcases eq_or_length_lt hne hlen hloop with h | h
      · exact h.symm
      · omega
  | succ m ih =>
      rw [Function.iterate_succ_apply] at hscan
      cases rest with
      | nil => exact ih hscan hvw hloop
      | cons c rest =>
          by_cases hfirst : substr <+: c :: rest
          · rw [scan_replace hne hfirst] at hscan
            obtain ⟨z, hz⟩ := hfirst
            rw [← hz, List.drop_left] at hscan
            rw [← hz, ← List.append_assoc] at hloop
            obtain ⟨y, y', fuel', hy, -, hloop⟩ := exists_first_replaced hne hloop
            have hlength := congrArg List.length hy
            simp only [List.length_append] at hlength
            have hnew := ih hscan (by simp only [List.length_append]; omega) hloop
            obtain rfl := eq_nil_of_last_difference hab hsubstr hreplacement hy hnew
            rw [List.append_nil] at hy hnew
            exact (List.append_cancel_right hy).symm.trans (List.append_cancel_right hnew)
          · rw [scan_copy hfirst] at hscan
            have hnew := @ih (v ++ [c]) (w ++ [c]) rest fuel hscan (by simp [hvw])
              (by simpa using hloop)
            exact List.append_cancel_right hnew

/-- The loop replaces an earlier occurrence than the one behind `x`, and the replacement is shorter
than the pattern and ends otherwise. -/
theorem strReplaceLoop_ne_of_shorter (hi : OccursAt substr (x ++ substr ++ z) i)
    (hlt : i < x.length) (hlen : replacement.length < substr.length) {g p' r' : List Char}
    {a b : Char} (hab : a ≠ b) (hsubstr : substr = p' ++ a :: g)
    (hreplacement : replacement = r' ++ b :: g) {m : ℕ}
    (hscan : (scan substr replacement)^[m] (x ++ replacement, z) = (t, [])) (fuel : ℕ) :
    strReplaceLoop substr replacement fuel (x ++ substr ++ z) ≠ some t := by
  intro hloop
  have hne : substr ≠ [] := by simp [hsubstr]
  obtain ⟨y, y', fuel', hy, hbefore, hloop⟩ := exists_first_replaced hne hloop
  have hlength := congrArg List.length hy
  simp only [List.length_append] at hlength
  have hnew := eq_of_iterate_scan hlen hab hsubstr hreplacement hscan
    (by simp only [List.length_append]; omega) hloop
  obtain rfl := eq_nil_of_last_difference hab hsubstr hreplacement hy hnew
  rw [List.append_nil] at hnew
  obtain rfl := List.append_cancel_right hnew
  exact hbefore i hlt hi

/-- An occurrence that is missed is never made up for. -/
theorem strReplaceLoop_ne_of_missed (hsubstr : substr ≠ [])
    (hrevealing : Revealing substr replacement) (hi : OccursAt substr (x ++ substr ++ z) i)
    (hlt : i < x.length) {m : ℕ}
    (hscan : (scan substr replacement)^[m] (x ++ replacement, z) = (t, [])) (fuel : ℕ) :
    strReplaceLoop substr replacement fuel (x ++ substr ++ z) ≠ some t := by
  intro hloop
  have hfree := strReplaceLoop_not_occurs hsubstr hloop
  have hfront : x ++ replacement <+: t := by
    have hprefix := prefix_iterate_scan (p := substr) (r := replacement) (x ++ replacement, z) m
    rwa [hscan] at hprefix
  have hkept : x <+: t := (List.prefix_append _ _).trans hfront
  -- it overlaps the occurrence behind `x`, or the text that is returned would contain it
  have hoverlap : x.length < i + substr.length := by
    by_contra hle
    have hx : x <+: x ++ substr ++ z := ⟨substr ++ z, by simp⟩
    exact hfree i ((hi.of_le hx (by omega)).of_isPrefix hkept)
  rcases hrevealing with hunbordered | hproper
  · have hdisjoint := hunbordered.disjoint hi (occursAt_append x substr z) hlt
    omega
  have hinserted : OccursAt replacement t x.length := by
    have hbehind := occursAt_append x replacement []
    rw [List.append_nil] at hbehind
    exact hbehind.of_isPrefix hfront
  rcases exists_first_difference substr replacement with hsub | hbegins | hdiffer
  · exact hfree _ (hsub.trans hinserted)
  · rcases hproper with hends | rfl
    · rw [not_and] at hends
      have hlen : replacement.length < substr.length := by
        refine lt_of_le_of_ne hbegins.length_le fun h => hends hbegins ?_
        rw [hbegins.eq_of_length h]
      rcases exists_last_difference substr replacement with hsub | hsub | hdiffer
      · exact absurd hsub.length_le (by omega)
      · exact hends hbegins hsub
      · obtain ⟨g, a, b, p', r', hab, hp, hr⟩ := hdiffer
        exact strReplaceLoop_ne_of_shorter hi hlt hlen hab hp hr hscan fuel hloop
    · exact hfree _ hinserted
  · obtain ⟨g, a, b, p', r', hab, hp, hr⟩ := hdiffer
    exact strReplaceLoop_ne_of_difference hi hlt hfront hab hp hr fuel hloop

end Missed

theorem noJointMatch_of_replaces (hsubstr : substr ≠ []) (hrevealing : Revealing substr replacement)
    {string : List Char} (h : ReplacesAll string substr replacement) :
    NoJointMatch string substr replacement := by
  by_contra hmatch
  rw [NoJointMatch] at hmatch
  push Not at hmatch
  -- the first time that the head does not see a match
  obtain ⟨n, hn, hbefore⟩ : ∃ n, (n ≤ string.length ∧
      JointMatch substr (scanned substr replacement string n)) ∧
      ∀ m < n, ¬ JointMatch substr (scanned substr replacement string m) := by
    classical
    refine ⟨Nat.find hmatch, Nat.find_spec hmatch, fun m hm hm' => ?_⟩
    exact Nat.find_min hmatch hm ⟨hm.le.trans (Nat.find_spec hmatch).1, hm'⟩
  obtain ⟨hn, k, hk, hoccurs⟩ := hn
  obtain ⟨fuel, hloop⟩ := (loop_scanned_iff hsubstr hbefore).mp h
  have hcases := replaceAll_cases (r := replacement) hsubstr hn
  generalize scanned substr replacement string n = st at *
  obtain ⟨w, v⟩ := st
  dsimp only at hk hoccurs hloop hcases
  rcases hcases with hend | ⟨u, v', m, rfl, hscan⟩
  · exact strReplaceLoop_not_occurs hsubstr hloop k (hend ▸ hoccurs)
  · simp only [← List.append_assoc] at hoccurs hloop
    refine strReplaceLoop_ne_of_missed hsubstr hrevealing hoccurs ?_ hscan fuel hloop
    rw [List.length_append]
    omega

/-- Without joint matches it replaces as the textbook does; for a pattern that does not overlap
itself, and for a replacement that is not both a proper beginning and a proper end of the pattern,
only then. -/
theorem strReplace_replaces (string : List Char) (hsubstr : substr ≠ []) :
    (NoJointMatch string substr replacement → ReplacesAll string substr replacement) ∧
      (Revealing substr replacement →
        (ReplacesAll string substr replacement ↔ NoJointMatch string substr replacement)) :=
  ⟨replaces_of_noJointMatch hsubstr, fun hrevealing =>
    ⟨noJointMatch_of_replaces hsubstr hrevealing, replaces_of_noJointMatch hsubstr⟩⟩

end Loop

theorem strReplace_replaces_at :
    ReplacesAll "a\\tb".toList ['\\', 't'] ['\t'] :=
  (strReplace_replaces "a\\tb".toList (by decide)).1 (by decide)

/-- `str_replace("aa", "a", "a")` does not end, and a comment in which a backslash, the end of a
line and an `n` follow each other is left empty. -/
theorem not_strReplace :
    ¬ ReplacesAll ['a', 'a'] ['a'] ['a'] ∧
      getNakedCommentDupped 3 ['\\', '\\', 'n', 'n'] = some [] ∧
      ¬ ReplacesAll ['\\', '\\', 'n', 'n'] ['\\', 'n'] [] := by
  refine ⟨fun h => ?_, by decide, fun h => ?_⟩
  · have hrevealing : Revealing ['a'] ['a'] := .inr (.inr rfl)
    exact absurd (noJointMatch_of_replaces (by decide) hrevealing h) (by decide)
  · have hunbordered : Unbordered ['\\', 'n'] := by
      intro k hpos hk
      obtain rfl : k = 1 := by simp at hk; omega
      decide
    exact absurd (noJointMatch_of_replaces (by decide) (.inl hunbordered) h) (by decide)

end Esnacc.Compiler
