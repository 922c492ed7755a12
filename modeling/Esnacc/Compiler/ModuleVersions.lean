import Mathlib

/-!
The patch version of a module is the newest `@added` of its operations, types and members. It is
asked for after parsing, and kept once it has been worked out. Whose operation it is has to be
seen from its key, which is compared with the name of a module as far as that name goes.
-/

namespace Esnacc.Compiler.ModuleVersions

abbrev Text := List Char

/-- What a key of the maps is put together from. -/
structure Key where
  strModuleName : Text
  strTypeName : Text
  deriving DecidableEq, Repr

def Key.text (key : Key) : Text := key.strModuleName ++ "::".toList ++ key.strTypeName

/-- `strKey.substr(0, iNameLength) == m_strModuleName`. -/
def Key.begins (name : Text) (key : Key) : Bool := key.text.take name.length = name

structure EOperationComment where
  key : Key
  i64Added : ℤ
  deriving DecidableEq, Repr

/-- With the times of its members. -/
structure ESequenceComment where
  key : Key
  i64Added : ℤ
  mapMembers : List (Text × ℤ)
  deriving DecidableEq, Repr

/-- What the parser has read. -/
structure Comments where
  mapOperations : List EOperationComment
  mapSequences : List ESequenceComment
  deriving DecidableEq, Repr

structure EModuleComment where
  strModuleName : Text
  i64ModuleVersion : ℤ
  deriving DecidableEq, Repr

structure State where
  mapModules : List EModuleComment
  glMaxModulePatchVersion : ℤ
  deriving DecidableEq, Repr

/-- `if (i64Added > i64HighestVersion) i64HighestVersion = i64Added`. -/
def higher (i64HighestVersion i64Added : ℤ) : ℤ :=
  if i64Added > i64HighestVersion then i64Added else i64HighestVersion

/-- The loops over the operations and over the types with their members. -/
def highestVersion (c : Comments) (name : Text) : ℤ :=
  c.mapSequences.foldl (fun i64HighestVersion sequenceComment =>
      if sequenceComment.key.begins name then
        sequenceComment.mapMembers.foldl (fun i64HighestVersion memberComment =>
          higher i64HighestVersion memberComment.2)
          (higher i64HighestVersion sequenceComment.i64Added)
      else i64HighestVersion)
    (c.mapOperations.foldl (fun i64HighestVersion operationComment =>
      if operationComment.key.begins name then
        higher i64HighestVersion operationComment.i64Added
      else i64HighestVersion) 0)

/-- `EModuleComment::GetModulePatchVersion`, with what is left in the entry. -/
def EModuleComment.getModulePatchVersion (c : Comments) (m : EModuleComment) :
    ℤ × EModuleComment :=
  if m.i64ModuleVersion = -1 then
    (highestVersion c m.strModuleName,
      { m with i64ModuleVersion := highestVersion c m.strModuleName })
  else (m.i64ModuleVersion, m)

/-- `GetModulePatchVersion`. -/
def getModulePatchVersion (c : Comments) (s : State) (szModuleName : Text) : ℤ × State :=
  match s.mapModules.find? fun m => m.strModuleName = szModuleName with
  | none => (-1, s)
  | some it =>
      ((it.getModulePatchVersion c).1, { s with
        mapModules := s.mapModules.map fun m =>
          if m.strModuleName = szModuleName then (it.getModulePatchVersion c).2 else m })

/-- `GetMaxModulePatchVersion`; the loop has copies of the entries. -/
def getMaxModulePatchVersion (c : Comments) (s : State) : ℤ × State :=
  if s.glMaxModulePatchVersion = -1 then
    let lHighestModulePatchVersion := s.mapModules.foldl (fun lHighestModulePatchVersion mod =>
      higher lHighestModulePatchVersion (mod.getModulePatchVersion c).1) 0
    (lHighestModulePatchVersion,
      { s with glMaxModulePatchVersion := lHighestModulePatchVersion })
  else (s.glMaxModulePatchVersion, s)

inductive Call
  | modulePatchVersion (szModuleName : Text)
  | maxModulePatchVersion
  deriving DecidableEq, Repr

def call (c : Comments) (s : State) : Call → ℤ × State
  | .modulePatchVersion szModuleName => getModulePatchVersion c s szModuleName
  | .maxModulePatchVersion => getMaxModulePatchVersion c s

/-- The answers to calls that are made one after the other. -/
def run (c : Comments) : State → List Call → List ℤ
  | _, [] => []
  | s, q :: calls => (call c s q).1 :: run c (call c s q).2 calls

/-- As the parser leaves it: nothing has been asked for yet, and whatever has been read is part of
a module. -/
structure Parsed (c : Comments) (s : State) : Prop where
  modules : ∀ m ∈ s.mapModules, m.i64ModuleVersion = -1
  max : s.glMaxModulePatchVersion = -1
  operations : ∀ o ∈ c.mapOperations, ∃ m ∈ s.mapModules, m.strModuleName = o.key.strModuleName
  sequences : ∀ q ∈ c.mapSequences, ∃ m ∈ s.mapModules, m.strModuleName = q.key.strModuleName

/-! ### The largest of some times -/

def largest (times : List ℤ) : ℤ := times.foldl higher 0

theorem higher_eq_max (a b : ℤ) : higher a b = max a b := by
  rw [higher]
  split_ifs with h
  · exact (max_eq_right h.le).symm
  · exact (max_eq_left (not_lt.mp h)).symm

theorem foldl_higher_le {times : List ℤ} {a b : ℤ} :
    times.foldl higher a ≤ b ↔ a ≤ b ∧ ∀ t ∈ times, t ≤ b := by
  induction times generalizing a with
  | nil => simp
  | cons t times ih =>
      rw [List.foldl_cons, ih, higher_eq_max, max_le_iff, List.forall_mem_cons, and_assoc]

theorem largest_le {times : List ℤ} {b : ℤ} : largest times ≤ b ↔ 0 ≤ b ∧ ∀ t ∈ times, t ≤ b :=
  foldl_higher_le

theorem le_largest {times : List ℤ} {t : ℤ} (h : t ∈ times) : t ≤ largest times :=
  (largest_le.mp le_rfl).2 t h

theorem largest_nonneg (times : List ℤ) : 0 ≤ largest times := (largest_le.mp le_rfl).1

theorem largest_mono {xs ys : List ℤ} (h : xs ⊆ ys) : largest xs ≤ largest ys :=
  largest_le.mpr ⟨largest_nonneg _, fun _ ht => le_largest (h ht)⟩

/-! ### The times behind a version -/

/-- The times of the operations, types and members whose key is among those asked for. -/
def Comments.added (c : Comments) (p : Key → Bool) : List ℤ :=
  (c.mapOperations.filter fun o => p o.key).map EOperationComment.i64Added ++
    (c.mapSequences.filter fun q => p q.key).flatMap fun q =>
      q.i64Added :: q.mapMembers.map Prod.snd

/-- The version of a module, from what is in it. -/
def Comments.version (c : Comments) (name : Text) : ℤ :=
  largest (c.added fun key => key.strModuleName = name)

def Comments.maxVersion (c : Comments) : ℤ := largest (c.added fun _ => true)

theorem Comments.added_mono (c : Comments) {p q : Key → Bool} (h : ∀ key, p key → q key) :
    c.added p ⊆ c.added q := by
  intro t ht
  simp only [added, List.mem_append, List.mem_map, List.mem_flatMap, List.mem_filter] at ht ⊢
  rcases ht with ⟨o, ⟨ho, hp⟩, rfl⟩ | ⟨q, ⟨hq, hp⟩, ht⟩
  · exact .inl ⟨o, ⟨ho, h _ hp⟩, rfl⟩
  · exact .inr ⟨q, ⟨hq, h _ hp⟩, ht⟩

theorem foldl_operations (p : Key → Bool) (operations : List EOperationComment) (v : ℤ) :
    operations.foldl (fun v o => if p o.key then higher v o.i64Added else v) v =
      ((operations.filter fun o => p o.key).map EOperationComment.i64Added).foldl higher v := by
  induction operations generalizing v with
  | nil => rfl
  | cons o operations ih =>
      rw [List.foldl_cons, ih]
      cases hp : p o.key <;> simp [hp]

theorem foldl_sequences (p : Key → Bool) (sequences : List ESequenceComment) (v : ℤ) :
    sequences.foldl (fun v q => if p q.key then
        q.mapMembers.foldl (fun v m => higher v m.2) (higher v q.i64Added) else v) v =
      ((sequences.filter fun q => p q.key).flatMap fun q =>
        q.i64Added :: q.mapMembers.map Prod.snd).foldl higher v := by
  induction sequences generalizing v with
  | nil => rfl
  | cons q sequences ih =>
      rw [List.foldl_cons, ih]
      cases hp : p q.key with
      | false => simp [hp]
      | true => simp [hp, List.foldl_map]

/-- The loops find the largest of the times whose keys begin with the name. -/
theorem highestVersion_eq (c : Comments) (name : Text) :
    highestVersion c name = largest (c.added (Key.begins name)) := by
  rw [highestVersion, foldl_operations, foldl_sequences, largest, Comments.added,
    List.foldl_append]

theorem begins_own (key : Key) : key.begins key.strModuleName = true := by
  rw [Key.begins, Key.text, List.append_assoc, List.take_left, decide_eq_true rfl]

theorem version_le_highestVersion (c : Comments) (name : Text) :
    c.version name ≤ highestVersion c name := by
  rw [highestVersion_eq]
  refine largest_mono (c.added_mono fun key hkey => ?_)
  rw [← of_decide_eq_true hkey]
  exact begins_own key

/-- What is in other modules, but has a key that begins with the name, is not newer. -/
def Undisturbed (c : Comments) (name : Text) : Prop :=
  ∀ t ∈ c.added (fun key => key.begins name ∧ key.strModuleName ≠ name), t ≤ c.version name

instance (c : Comments) (name : Text) : Decidable (Undisturbed c name) :=
  inferInstanceAs (Decidable (∀ t ∈ c.added _, t ≤ c.version name))

theorem highestVersion_eq_version_iff (c : Comments) (name : Text) :
    highestVersion c name = c.version name ↔ Undisturbed c name := by
  constructor
  · intro h t ht
    rw [← h, highestVersion_eq]
    exact le_largest (c.added_mono (fun key hkey => (of_decide_eq_true hkey).1) ht)
  · intro h
    refine le_antisymm ?_ (version_le_highestVersion c name)
    rw [highestVersion_eq, largest_le]
    refine ⟨largest_nonneg _, fun t ht => ?_⟩
    -- what begins with the name is in the module or in another one
    have hsplit : t ∈ c.added (fun key => key.strModuleName = name) ∨
        t ∈ c.added (fun key => key.begins name ∧ key.strModuleName ≠ name) := by
      simp only [Comments.added, List.mem_append, List.mem_map, List.mem_flatMap,
        List.mem_filter, decide_eq_true_eq] at ht ⊢
      rcases ht with ⟨o, ⟨ho, hp⟩, rfl⟩ | ⟨q, ⟨hq, hp⟩, ht⟩
      · by_cases hown : o.key.strModuleName = name
        · exact .inl (.inl ⟨o, ⟨ho, hown⟩, rfl⟩)
        · exact .inr (.inl ⟨o, ⟨ho, hp, hown⟩, rfl⟩)
      · by_cases hown : q.key.strModuleName = name
        · exact .inl (.inr ⟨q, ⟨hq, hown⟩, ht⟩)
        · exact .inr (.inr ⟨q, ⟨hq, hp, hown⟩, ht⟩)
    rcases hsplit with hown | hforeign
    · exact le_largest hown
    · exact h t hforeign

/-! ### Every order of calls -/

/-- What has been kept is what would be worked out again. -/
structure Kept (c : Comments) (names : List Text) (s : State) : Prop where
  names : s.mapModules.map EModuleComment.strModuleName = names
  modules : ∀ m ∈ s.mapModules,
    m.i64ModuleVersion = -1 ∨ m.i64ModuleVersion = highestVersion c m.strModuleName
  max : s.glMaxModulePatchVersion = -1 ∨ s.glMaxModulePatchVersion = c.maxVersion

theorem EModuleComment.getModulePatchVersion_fst {c : Comments} {m : EModuleComment}
    (h : m.i64ModuleVersion = -1 ∨ m.i64ModuleVersion = highestVersion c m.strModuleName) :
    (m.getModulePatchVersion c).1 = highestVersion c m.strModuleName := by
  rw [getModulePatchVersion]
  split_ifs with hnone
  · rfl
  · exact h.resolve_left hnone

theorem EModuleComment.getModulePatchVersion_snd {c : Comments} {m : EModuleComment}
    (h : m.i64ModuleVersion = -1 ∨ m.i64ModuleVersion = highestVersion c m.strModuleName) :
    (m.getModulePatchVersion c).2 = ⟨m.strModuleName, highestVersion c m.strModuleName⟩ := by
  rw [getModulePatchVersion]
  split_ifs with hnone
  · rfl
  · rw [← h.resolve_left hnone]

theorem kept_of_parsed {c : Comments} {s : State} (h : Parsed c s) :
    Kept c (s.mapModules.map EModuleComment.strModuleName) s :=
  ⟨rfl, fun m hm => .inl (h.modules m hm), .inl h.max⟩

/-- The largest of the versions, whatever modules they are taken from. -/
theorem foldl_versions {c : Comments} {ms : List EModuleComment}
    (h : ∀ m ∈ ms,
      m.i64ModuleVersion = -1 ∨ m.i64ModuleVersion = highestVersion c m.strModuleName) :
    ms.foldl (fun v m => higher v (m.getModulePatchVersion c).1) 0 =
      largest (ms.map fun m => highestVersion c m.strModuleName) := by
  rw [largest, List.foldl_map]
  refine List.foldl_ext _ _ _ fun v m hm => ?_
  rw [EModuleComment.getModulePatchVersion_fst (h m hm)]

/-- Everything has a module, so that nothing is missed, and nothing is added by looking at
something twice. -/
theorem largest_versions {c : Comments} {s : State} (h : Parsed c s) :
    largest (s.mapModules.map fun m => highestVersion c m.strModuleName) = c.maxVersion := by
  apply le_antisymm
  · refine largest_le.mpr ⟨largest_nonneg _, fun t ht => ?_⟩
    obtain ⟨m, -, rfl⟩ := List.mem_map.mp ht
    rw [highestVersion_eq]
    exact largest_mono (c.added_mono fun _ _ => rfl)
  · refine largest_le.mpr ⟨largest_nonneg _, fun t ht => ?_⟩
    have hversion {key : Key} (hm : ∃ m ∈ s.mapModules, m.strModuleName = key.strModuleName)
        (ht : t ∈ c.added fun key' => key'.strModuleName = key.strModuleName) :
        t ≤ largest (s.mapModules.map fun m => highestVersion c m.strModuleName) := by
      obtain ⟨m, hmem, hname⟩ := hm
      refine le_trans ?_ (le_largest (List.mem_map_of_mem hmem))
      rw [hname]
      exact (le_largest ht).trans (version_le_highestVersion c _)
    simp only [Comments.added, List.mem_append, List.mem_map, List.mem_flatMap,
      List.mem_filter, decide_eq_true_eq] at ht hversion
    rcases ht with ⟨o, ⟨ho, -⟩, rfl⟩ | ⟨q, ⟨hq, -⟩, ht⟩
    · exact hversion (h.operations o ho) (.inl ⟨o, ⟨ho, rfl⟩, rfl⟩)
    · exact hversion (h.sequences q hq) (.inr ⟨q, ⟨hq, rfl⟩, ht⟩)

/-- What the code answers, whatever has been asked before. -/
def answer (c : Comments) (names : List Text) : Call → ℤ
  | .modulePatchVersion szModuleName =>
      if names.any (· = szModuleName) then highestVersion c szModuleName else -1
  | .maxModulePatchVersion => c.maxVersion

theorem any_names {names : List Text} {szModuleName : Text} :
    names.any (· = szModuleName) = true ↔ szModuleName ∈ names := by
  simp

variable {c : Comments} {names : List Text}

theorem getModulePatchVersion_kept {s : State} (h : Kept c names s) (szModuleName : Text) :
    (getModulePatchVersion c s szModuleName).1 = answer c names (.modulePatchVersion szModuleName) ∧
      Kept c names (getModulePatchVersion c s szModuleName).2 := by
  rw [getModulePatchVersion, answer]
  cases hfind : s.mapModules.find? fun m => m.strModuleName = szModuleName with
  | none =>
      have hnot : szModuleName ∉ names := by
        rw [← h.names, List.mem_map]
        rintro ⟨m, hm, hname⟩
        exact List.find?_eq_none.mp hfind m hm (decide_eq_true hname)
      rw [if_neg (mt any_names.mp hnot)]
      exact ⟨rfl, h⟩
  | some it =>
      have hname : it.strModuleName = szModuleName := of_decide_eq_true (List.find?_some hfind :)
      have hmem := List.mem_of_find?_eq_some hfind
      have hin : szModuleName ∈ names := by
        rw [← h.names, ← hname]
        exact List.mem_map_of_mem hmem
      have hit := h.modules it hmem
      dsimp only
      rw [if_pos (any_names.mpr hin), EModuleComment.getModulePatchVersion_fst hit,
        EModuleComment.getModulePatchVersion_snd hit, hname]
      refine ⟨rfl, ?_, ?_, h.max⟩
      · rw [← h.names, List.map_map]
        refine List.map_congr_left fun m _ => ?_
        simp only [Function.comp_apply]
        split_ifs with heq
        · exact heq.symm
        · rfl
      · intro m hm
        obtain ⟨m', hm', rfl⟩ := List.mem_map.mp hm
        split_ifs with heq
        · exact .inr rfl
        · exact h.modules m' hm'

theorem getMaxModulePatchVersion_kept {s₀ s : State} (hparsed : Parsed c s₀)
    (h : Kept c (s₀.mapModules.map EModuleComment.strModuleName) s) :
    (getMaxModulePatchVersion c s).1 = c.maxVersion ∧
      Kept c (s₀.mapModules.map EModuleComment.strModuleName)
        (getMaxModulePatchVersion c s).2 := by
  have hmax : s.mapModules.foldl (fun v m => higher v (m.getModulePatchVersion c).1) 0 =
      c.maxVersion := by
    rw [foldl_versions h.modules, ← largest_versions hparsed]
    have hmap := congrArg (List.map (highestVersion c)) h.names
    rw [List.map_map, List.map_map] at hmap
    exact congrArg largest hmap
  rw [getMaxModulePatchVersion]
  split_ifs with hnone
  · exact ⟨hmax, h.names, h.modules, .inr hmax⟩
  · exact ⟨h.max.resolve_left hnone, h⟩

theorem run_eq {s₀ : State} (hparsed : Parsed c s₀) (calls : List Call) {s : State}
    (h : Kept c (s₀.mapModules.map EModuleComment.strModuleName) s) :
    run c s calls = calls.map (answer c (s₀.mapModules.map EModuleComment.strModuleName)) := by
  induction calls generalizing s with
  | nil => rfl
  | cons q calls ih =>
      have hstep : (call c s q).1 =
            answer c (s₀.mapModules.map EModuleComment.strModuleName) q ∧
          Kept c (s₀.mapModules.map EModuleComment.strModuleName) (call c s q).2 := by
        cases q with
        | modulePatchVersion szModuleName => exact getModulePatchVersion_kept h szModuleName
        | maxModulePatchVersion => exact getMaxModulePatchVersion_kept hparsed h
      rw [run, hstep.1, ih hstep.2, List.map_cons]

/-- What is asked for: a module of its own version, and all together of the largest time. -/
def IsRight (c : Comments) (s : State) : Call → ℤ → Prop
  | .modulePatchVersion szModuleName, version =>
      szModuleName ∈ s.mapModules.map EModuleComment.strModuleName →
        version = c.version szModuleName
  | .maxModulePatchVersion, version => version = c.maxVersion

/-- All answers are right, in every order of the calls, if and only if nothing newer disturbs the
modules that are asked for. -/
theorem patchVersions_iff {s : State} (h : Parsed c s) (calls : List Call) :
    List.Forall₂ (IsRight c s) calls (run c s calls) ↔
      ∀ name ∈ s.mapModules.map EModuleComment.strModuleName,
        .modulePatchVersion name ∈ calls → Undisturbed c name := by
  rw [run_eq h calls (kept_of_parsed h), List.forall₂_map_right_iff, List.forall₂_same]
  constructor
  · intro hright name hname hcall
    have hversion := hright _ hcall hname
    rw [answer, if_pos (any_names.mpr hname)] at hversion
    exact (highestVersion_eq_version_iff c name).mp hversion
  · intro hundisturbed q hq
    cases q with
    | modulePatchVersion name =>
        intro hname
        rw [answer, if_pos (any_names.mpr hname)]
        exact (highestVersion_eq_version_iff c name).mpr (hundisturbed name hname hq)
    | maxModulePatchVersion => rfl

/-- Two modules; the name of the first is the beginning of the name of the second. -/
def twoModules : State :=
  ⟨[⟨"ENetUC_Common".toList, -1⟩, ⟨"ENetUC_CommonEx".toList, -1⟩], -1⟩

def oneOperation (strModuleName : Text) : Comments :=
  ⟨[⟨⟨strModuleName, "asnInvoke".toList⟩, 1700000000⟩], []⟩

theorem parsed_twoModules {name : Text}
    (h : ∃ m ∈ twoModules.mapModules, m.strModuleName = name) :
    Parsed (oneOperation name) twoModules :=
  ⟨by decide, rfl, fun o ho => by rw [List.mem_singleton.mp ho]; exact h, nofun⟩

theorem patchVersions_first :
    List.Forall₂ (IsRight (oneOperation "ENetUC_Common".toList) twoModules)
      [.maxModulePatchVersion, .modulePatchVersion "ENetUC_CommonEx".toList,
        .modulePatchVersion "ENetUC_Common".toList]
      (run (oneOperation "ENetUC_Common".toList) twoModules
        [.maxModulePatchVersion, .modulePatchVersion "ENetUC_CommonEx".toList,
          .modulePatchVersion "ENetUC_Common".toList]) :=
  (patchVersions_iff (parsed_twoModules ⟨_, List.mem_cons_self, rfl⟩) _).mpr (by decide)

/-- An operation of the second module makes the first one newer. -/
theorem not_patchVersions :
    ¬ ∀ (c : Comments) (s : State), Parsed c s → ∀ calls,
      List.Forall₂ (IsRight c s) calls (run c s calls) := by
  intro h
  have hfirst := h _ _ (parsed_twoModules ⟨_, List.mem_cons_of_mem _ List.mem_cons_self, rfl⟩)
    [.modulePatchVersion "ENetUC_Common".toList]
  have hrun : run (oneOperation "ENetUC_CommonEx".toList) twoModules
      [.modulePatchVersion "ENetUC_Common".toList] = [1700000000] := by decide
  rw [hrun] at hfirst
  cases hfirst with
  | cons hright _ => exact absurd (hright (by decide)) (by decide)

end Esnacc.Compiler.ModuleVersions
