import Esnacc.Rose.WorkerPools

/-!
`Configure` as one call, from the check of the settings to the start of the last floor thread. While
it waits for the workers of the previous set the other threads go on; what they do, and whether a
completion, a join or the start of a thread throws, is taken from an environment. An exception
leaves the registry as it is at that time.
-/

namespace Esnacc

namespace WorkerPools

/-- Beside the pools: the pool that serves an operation, and the pools of the threads that run. -/
structure Registry (σ μ : Type) extends Shared σ μ where
  operationPools : ℕ → Option ℕ
  workers : List ℕ

/-- What `Configure` has no part in. `meanwhile` is what the other threads leave of the pools, of
the counts of the stubs and of themselves by the time the workers of a pool have ended. -/
structure Environment (σ μ : Type) where
  completionThrows : WorkItem σ μ → Bool
  joinThrows : ℕ → Bool
  starts : ℕ → Bool
  meanwhile : ℕ → Registry σ μ → List (PoolState σ μ) × (σ → ℕ) × List ℕ

/-- How the call ends. -/
inductive Ending
  | returned (configured : Bool)
  | threw
  deriving DecidableEq, Repr

variable {σ μ : Type}

/-! ### The check -/

/-- The loop over the operations of one setting; none when an id is there already. -/
def insertIds (operationIds : List ℕ) : List ℕ → Option (List ℕ)
  | [] => some operationIds
  | operationId :: ids =>
      if operationId ∈ operationIds then none else insertIds (operationId :: operationIds) ids

def checkConfigs (operationIds : List ℕ) : List PoolConfig → Option (List ℕ)
  | [] => some operationIds
  | config :: pools =>
      (insertIds operationIds config.operationIds).bind fun ids => checkConfigs ids pools

/-! ### Shutdown -/

/-- `JoinPool`, and whether it has come to its end. -/
def joinPool (env : Environment σ μ) (reg : Registry σ μ) (p : ℕ) : Registry σ μ × Bool :=
  match reg.pools[p]? with
  | none => (reg, true)
  | some pool =>
      let reg : Registry σ μ :=
        { reg with toShared := reg.setPool p { pool with queue := [], stopping := true } }
      if pool.queue.any fun item => item.complete && env.completionThrows item then (reg, false)
      else if env.joinThrows p then (reg, false)
      else
        let left := env.meanwhile p reg
        ({ reg with
            pools := left.1
            inflight := left.2.1
            workers := left.2.2.filter (· ≠ p) }, true)

def joinPools (env : Environment σ μ) : Registry σ μ → List ℕ → Registry σ μ × Bool
  | reg, [] => (reg, true)
  | reg, p :: pools =>
      match joinPool env reg p with
      | (reg, true) => joinPools env reg pools
      | (reg, false) => (reg, false)

def shutdown (env : Environment σ μ) (reg : Registry σ μ) : Registry σ μ × Bool :=
  joinPools env { reg with registry := [], operationPools := fun _ => none } reg.registry

/-! ### The new set -/

/-- The pool of a setting, before its floor thread. -/
def makePool (config : PoolConfig) : PoolState σ μ where
  name := config.name
  maxThreads := max 1 config.maxThreads
  maxElements := config.maxElements
  idleTimeout := config.idleTimeoutMs
  faultPolicy := config.faultPolicy
  queue := []
  running := 0
  idleWorkers := 0
  liveWorkers := 0
  stopping := false

/-- `operationPools.emplace`: an id that has a pool keeps it. -/
def emplace (p : ℕ) (operationPools : ℕ → Option ℕ) (operationId : ℕ) : ℕ → Option ℕ :=
  if (operationPools operationId).isSome then operationPools
  else Function.update operationPools operationId (some p)

/-- `StartFloorWorker`; the thread is counted before it is started. -/
def startFloorWorker (env : Environment σ μ) (reg : Registry σ μ) (p : ℕ) : Registry σ μ × Bool :=
  match reg.pools[p]? with
  | none => (reg, true)
  | some pool =>
      if pool.stopping ∨ 0 < pool.liveWorkers then (reg, true)
      else
        let reg : Registry σ μ :=
          { reg with toShared := reg.setPool p { pool with liveWorkers := pool.liveWorkers + 1 } }
        if env.starts p then ({ reg with workers := reg.workers ++ [p] }, true) else (reg, false)

/-- The body of the second loop. -/
def installConfig (env : Environment σ μ) (reg : Registry σ μ) (config : PoolConfig) :
    Registry σ μ × Bool :=
  if (reg.findByName config.name).isSome then (reg, true)
  else
    let p := reg.pools.length
    startFloorWorker env
      { reg with
        pools := reg.pools ++ [makePool config]
        registry := reg.registry ++ [p]
        operationPools := config.operationIds.foldl (emplace p) reg.operationPools } p

def installConfigs (env : Environment σ μ) : Registry σ μ → List PoolConfig → Registry σ μ × Bool
  | reg, [] => (reg, true)
  | reg, config :: pools =>
      match installConfig env reg config with
      | (reg, true) => installConfigs env reg pools
      | (reg, false) => (reg, false)

def configure (env : Environment σ μ) (reg : Registry σ μ) (pools : List PoolConfig) :
    Registry σ μ × Ending :=
  if (checkConfigs [] pools).isSome then
    match shutdown env reg with
    | (reg, true) =>
        match installConfigs env reg pools with
        | (reg, true) => (reg, .returned true)
        | (reg, false) => (reg, .threw)
    | (reg, false) => (reg, .threw)
  else (reg, .returned false)

/-! ### What is checked -/

theorem insertIds_eq (operationIds ids : List ℕ) :
    (insertIds operationIds ids = none ∧ ¬ (ids.Nodup ∧ List.Disjoint operationIds ids)) ∨
      (insertIds operationIds ids = some (ids.reverse ++ operationIds) ∧ ids.Nodup ∧
        List.Disjoint operationIds ids) := by
  induction ids generalizing operationIds with
  | nil => exact .inr ⟨rfl, List.nodup_nil, by simp⟩
  | cons id ids ih =>
      rw [insertIds]
      by_cases hmem : id ∈ operationIds
      · rw [if_pos hmem]
        exact .inl ⟨rfl, fun h => List.disjoint_cons_right.mp h.2 |>.1 hmem⟩
      · rw [if_neg hmem]
        rcases ih (id :: operationIds) with ⟨hnone, hnot⟩ | ⟨hsome, hnodup, hdisjoint⟩
        · refine .inl ⟨hnone, fun ⟨hnodup, hdisjoint⟩ => hnot ⟨hnodup.of_cons, ?_⟩⟩
          exact List.disjoint_cons_left.mpr
            ⟨(List.nodup_cons.mp hnodup).1, (List.disjoint_cons_right.mp hdisjoint).2⟩
        · obtain ⟨hid, hdisjoint⟩ := List.disjoint_cons_left.mp hdisjoint
          refine .inr ⟨?_, List.nodup_cons.mpr ⟨hid, hnodup⟩,
            List.disjoint_cons_right.mpr ⟨hmem, hdisjoint⟩⟩
          rw [hsome, List.reverse_cons, List.append_assoc, List.singleton_append]

/-- The operation ids of all settings. -/
def allIds (pools : List PoolConfig) : List ℕ := pools.flatMap PoolConfig.operationIds

theorem checkConfigs_isSome_iff (operationIds : List ℕ) (pools : List PoolConfig) :
    (checkConfigs operationIds pools).isSome ↔
      (allIds pools).Nodup ∧ List.Disjoint operationIds (allIds pools) := by
  induction pools generalizing operationIds with
  | nil => simp [checkConfigs, allIds]
  | cons config pools ih =>
      rw [checkConfigs, allIds, List.flatMap_cons, ← allIds, List.nodup_append',
        List.disjoint_append_right]
      rcases insertIds_eq operationIds config.operationIds with
        ⟨hnone, hnot⟩ | ⟨hsome, hnodup, hdisjoint⟩
      · rw [hnone]
        refine iff_of_false (by simp) ?_
        rintro ⟨⟨h, -, -⟩, hdisjoint, -⟩
        exact hnot ⟨h, hdisjoint⟩
      · rw [hsome, Option.bind_some, ih, List.disjoint_append_left, List.disjoint_reverse_left]
        tauto

theorem checkConfigs_nil_isSome_iff (pools : List PoolConfig) :
    (checkConfigs [] pools).isSome ↔ (allIds pools).Nodup :=
  (checkConfigs_isSome_iff [] pools).trans (and_iff_left (List.disjoint_nil_left _))

/-- The check is the one of the thread that configures. -/
theorem act_configure_eq [DecidableEq σ] (sh : Shared σ μ) (choice : Choice)
    (pools : List PoolConfig) :
    act sh choice (.configure pools) =
      some (sh, if (checkConfigs [] pools).isSome then [.shutdown (some pools)] else [],
        .silent) := by
  have hcheck := checkConfigs_nil_isSome_iff pools
  rw [act]
  by_cases hids : (allIds pools).Nodup
  · rw [if_pos (hcheck.mpr hids)]
    exact if_pos hids
  · rw [if_neg (mt hcheck.mp hids)]
    exact if_neg hids

/-! ### What shutdown leaves -/

theorem joinPool_unpooled (env : Environment σ μ) (reg : Registry σ μ) (p : ℕ) :
    (joinPool env reg p).1.registry = reg.registry ∧
      (joinPool env reg p).1.operationPools = reg.operationPools := by
  rw [joinPool]
  split
  · exact ⟨rfl, rfl⟩
  · dsimp only
    split_ifs <;> exact ⟨rfl, rfl⟩

theorem joinPools_unpooled (env : Environment σ μ) (pools : List ℕ) (reg : Registry σ μ) :
    (joinPools env reg pools).1.registry = reg.registry ∧
      (joinPools env reg pools).1.operationPools = reg.operationPools := by
  induction pools generalizing reg with
  | nil => exact ⟨rfl, rfl⟩
  | cons p pools ih =>
      obtain ⟨hregistry, hoperations⟩ := joinPool_unpooled env reg p
      rw [joinPools]
      split
      · rename_i reg' hjoin
        rw [hjoin] at hregistry hoperations
        exact ⟨(ih reg').1.trans hregistry, (ih reg').2.trans hoperations⟩
      · rename_i reg' hjoin
        rw [hjoin] at hregistry hoperations
        exact ⟨hregistry, hoperations⟩

theorem joinPool_threw {env : Environment σ μ} {p : ℕ} {reg : Registry σ μ}
    (h : (joinPool env reg p).2 = false) :
    (∃ item, env.completionThrows item = true) ∨ ∃ p, env.joinThrows p = true := by
  rw [joinPool] at h
  split at h
  · cases h
  · dsimp only at h
    split_ifs at h with hitem hthrows
    · obtain ⟨item, -, hitem⟩ := List.any_eq_true.mp hitem
      exact .inl ⟨item, (Bool.and_eq_true_iff.mp hitem).2⟩
    · exact .inr ⟨p, hthrows⟩

theorem joinPools_threw {env : Environment σ μ} {pools : List ℕ} {reg : Registry σ μ}
    (h : (joinPools env reg pools).2 = false) :
    (∃ item, env.completionThrows item = true) ∨ ∃ p, env.joinThrows p = true := by
  induction pools generalizing reg with
  | nil => cases h
  | cons p pools ih =>
      rw [joinPools] at h
      split at h
      · exact ih h
      · rename_i reg' hjoin
        exact joinPool_threw (congrArg Prod.snd hjoin)

/-! ### What is installed -/

/-- The pool of a setting with its floor thread. -/
def runningPool (config : PoolConfig) : PoolState σ μ := { makePool config with liveWorkers := 1 }

/-- The first setting of each name. -/
def choose (chosen : List PoolConfig) (config : PoolConfig) : List PoolConfig :=
  if config.name ∈ chosen.map PoolConfig.name then chosen else chosen ++ [config]

def firstOfNames (pools : List PoolConfig) : List PoolConfig := pools.foldl choose []

/-- In the midst of the loop: the pools of the settings `chosen` stand behind those of before. -/
structure Installing (base : Registry σ μ) (chosen : List PoolConfig) (reg : Registry σ μ) :
    Prop where
  names : (chosen.map PoolConfig.name).Nodup
  pools : reg.pools = base.pools ++ chosen.map runningPool
  registry : reg.registry = (List.range chosen.length).map (base.pools.length + ·)
  operations : ∀ id p, reg.operationPools id = some p ↔
    ∃ k c, chosen[k]? = some c ∧ id ∈ c.operationIds ∧ p = base.pools.length + k
  workers : reg.workers = base.workers ++ reg.registry

theorem Installing.start {base : Registry σ μ} (hregistry : base.registry = [])
    (hoperations : base.operationPools = fun _ => none) : Installing base [] base where
  names := List.nodup_nil
  pools := (List.append_nil _).symm
  registry := hregistry
  operations := by simp [hoperations]
  workers := by rw [hregistry, List.append_nil]

section Installing

variable {base reg : Registry σ μ} {chosen : List PoolConfig}

theorem Installing.findByName_isSome (h : Installing base chosen reg) (name : String) :
    (reg.findByName name).isSome ↔ name ∈ chosen.map PoolConfig.name := by
  rw [Shared.findByName, List.find?_isSome, h.registry, h.pools]
  simp only [List.mem_map, List.mem_range]
  constructor
  · rintro ⟨p, ⟨k, hk, rfl⟩, hname⟩
    rw [List.getElem?_append_right (Nat.le_add_right _ _), Nat.add_sub_cancel_left,
      List.getElem?_map, List.getElem?_eq_getElem hk] at hname
    exact ⟨chosen[k], List.getElem_mem hk, by simpa [runningPool, makePool] using hname⟩
  · rintro ⟨c, hc, rfl⟩
    obtain ⟨k, hk, rfl⟩ := List.getElem_of_mem hc
    refine ⟨_, ⟨k, hk, rfl⟩, ?_⟩
    rw [List.getElem?_append_right (Nat.le_add_right _ _), Nat.add_sub_cancel_left,
      List.getElem?_map, List.getElem?_eq_getElem hk]
    simp [runningPool, makePool]

theorem foldl_emplace_eq_some (p : ℕ) (ids : List ℕ) (operationPools : ℕ → Option ℕ) (id q : ℕ) :
    ids.foldl (emplace p) operationPools id = some q ↔
      operationPools id = some q ∨ operationPools id = none ∧ id ∈ ids ∧ q = p := by
  induction ids generalizing operationPools with
  | nil => simp
  | cons i ids ih =>
      rw [List.foldl_cons, ih, emplace]
      split_ifs with hsome
      · obtain ⟨r, hr⟩ := Option.isSome_iff_exists.mp hsome
        by_cases hid : id = i
        · subst hid
          simp [hr]
        · simp [hid]
      · by_cases hid : id = i
        · subst hid
          simp only [Option.not_isSome_iff_eq_none] at hsome
          simp [hsome, eq_comm]
        · simp [hid]

theorem startFloorWorker_eq (env : Environment σ μ) {p : ℕ} (config : PoolConfig)
    (h : reg.pools[p]? = some (makePool config)) :
    startFloorWorker env reg p =
      if env.starts p then
        ({ reg with toShared := reg.setPool p (runningPool config), workers := reg.workers ++ [p] },
          true)
      else ({ reg with toShared := reg.setPool p (runningPool config) }, false) := by
  rw [startFloorWorker, h]
  rfl

theorem Installing.installConfig (env : Environment σ μ) (h : Installing base chosen reg)
    {config : PoolConfig} (hnew : config.name ∉ chosen.map PoolConfig.name)
    (hids : List.Disjoint (allIds chosen) config.operationIds) :
    (∃ reg', WorkerPools.installConfig env reg config = (reg', true) ∧
        Installing base (chosen ++ [config]) reg') ∨
      ∃ reg' p, WorkerPools.installConfig env reg config = (reg', false) ∧
        env.starts p = false := by
  have hname : ¬ (reg.findByName config.name).isSome := fun hsome =>
    hnew ((h.findByName_isSome _).mp hsome)
  have hlen : reg.pools.length = base.pools.length + chosen.length := by
    rw [h.pools, List.length_append, List.length_map]
  rw [WorkerPools.installConfig, if_neg hname, startFloorWorker_eq env config
    (by rw [List.getElem?_append_right le_rfl, Nat.sub_self]; rfl)]
  by_cases hstarts : env.starts reg.pools.length = true
  · rw [if_pos hstarts]
    refine .inl ⟨_, rfl, ?_⟩
    have hnone {id : ℕ} (hid : id ∈ config.operationIds) : reg.operationPools id = none := by
      cases hpool : reg.operationPools id with
      | none => rfl
      | some q =>
          obtain ⟨k, c, hc, hmem, -⟩ := (h.operations id q).mp hpool
          exact absurd hid (hids (List.mem_flatMap.mpr ⟨c, List.mem_of_getElem? hc, hmem⟩))
    exact
      { names := by
          rw [List.map_append, List.map_singleton, List.nodup_append']
          exact ⟨h.names, List.nodup_singleton _, by simpa using hnew⟩
        pools := by
          rw [Shared.setPool, List.set_append_right _ _ le_rfl, Nat.sub_self, List.set_cons_zero,
            h.pools, List.map_append, List.map_singleton, List.append_assoc]
        registry := by
          simp only [Shared.setPool, h.registry, hlen, List.length_append, List.length_singleton,
            List.range_succ, List.map_append, List.map_singleton]
        operations := by
          intro id q
          rw [foldl_emplace_eq_some, h.operations]
          constructor
          · rintro (⟨k, c, hc, hmem, rfl⟩ | ⟨-, hmem, rfl⟩)
            · refine ⟨k, c, ?_, hmem, rfl⟩
              rw [List.getElem?_append_left (List.getElem?_eq_some_iff.mp hc).1]
              exact hc
            · exact ⟨chosen.length, config, by simp, hmem, hlen⟩
          · rintro ⟨k, c, hc, hmem, rfl⟩
            rcases Nat.lt_trichotomy k chosen.length with hk | rfl | hk
            · rw [List.getElem?_append_left hk] at hc
              exact .inl ⟨k, c, hc, hmem, rfl⟩
            · obtain rfl : config = c := by simpa using hc
              exact .inr ⟨hnone hmem, hmem, hlen.symm⟩
            · rw [List.getElem?_eq_none (by simp; omega)] at hc
              cases hc
        workers := by
          simp only [Shared.setPool, h.workers, List.append_assoc] }
  · rw [if_neg hstarts]
    exact .inr ⟨_, _, rfl, Bool.not_eq_true _ ▸ hstarts⟩

end Installing

/-- When every thread starts, the pools become what a step of the threads makes of them. -/
theorem installConfig_toShared {env : Environment σ μ} (hstarts : ∀ p, env.starts p = true)
    (reg : Registry σ μ) (config : PoolConfig) :
    (installConfig env reg config).1.toShared = (installPool reg.toShared config).1 := by
  rw [installConfig, installPool]
  split_ifs with hname
  · rfl
  · rw [startFloorWorker_eq env config
      (by rw [List.getElem?_append_right le_rfl, Nat.sub_self]; rfl), if_pos (hstarts _)]
    simp only [Shared.setPool, List.set_append_right _ _ le_rfl, Nat.sub_self, List.set_cons_zero]
    rfl

/-- Every setting is installed, but for those whose name has been there before, or the start of a
thread throws. -/
theorem Installing.installConfigs (env : Environment σ μ) {base : Registry σ μ}
    (pools : List PoolConfig) {chosen : List PoolConfig} {reg : Registry σ μ}
    (h : Installing base chosen reg) (hids : (allIds (chosen ++ pools)).Nodup) :
    (∃ reg', WorkerPools.installConfigs env reg pools = (reg', true) ∧
        Installing base (pools.foldl choose chosen) reg') ∨
      ∃ reg' p, WorkerPools.installConfigs env reg pools = (reg', false) ∧
        env.starts p = false := by
  induction pools generalizing chosen reg with
  | nil => exact .inl ⟨reg, rfl, h⟩
  | cons config pools ih =>
      rw [WorkerPools.installConfigs, List.foldl_cons]
      by_cases hname : config.name ∈ chosen.map PoolConfig.name
      · rw [choose, if_pos hname, WorkerPools.installConfig,
          if_pos ((h.findByName_isSome _).mpr hname)]
        refine ih h (hids.sublist ?_)
        exact List.Sublist.flatMap ((List.sublist_cons_self config pools).append_left chosen) _
      · rw [choose, if_neg hname]
        rw [allIds, List.flatMap_append, List.nodup_append', List.flatMap_cons] at hids
        rcases h.installConfig env hname (List.disjoint_append_right.mp hids.2.2).1 with
          ⟨reg', hreg, hinstalling⟩ | ⟨reg', p, hreg, hstarts⟩
        · rw [hreg]
          refine ih hinstalling ?_
          rw [allIds, List.append_assoc, List.flatMap_append, List.nodup_append']
          exact hids
        · rw [hreg]
          exact .inr ⟨reg', p, rfl, hstarts⟩

/-! ### All or nothing -/

/-- A pool that has just been made keeps within the limits of its setting. -/
structure WithinLimits (pool : PoolState σ μ) : Prop where
  floor : kMinLiveWorkers ≤ pool.liveWorkers
  threads : pool.liveWorkers ≤ pool.maxThreads
  elements : pool.maxElements = 0 ∨ pool.queue.length + pool.running ≤ pool.maxElements
  goesOn : pool.stopping = false

/-- The set of pools that settings with different names and operations make. -/
structure Installed (settings : List PoolConfig) (reg : Registry σ μ) : Prop where
  names : (settings.map PoolConfig.name).Nodup
  served : (allIds settings).Nodup
  distinct : reg.registry.Nodup
  pools : reg.registry.map (reg.pools[·]?) = settings.map fun config => some (runningPool config)
  limits : ∀ p ∈ reg.registry, ∃ pool, reg.pools[p]? = some pool ∧ WithinLimits pool
  operations : ∀ id p, reg.operationPools id = some p ↔
    ∃ (k : ℕ) (config : PoolConfig), reg.registry[k]? = some p ∧ settings[k]? = some config ∧
      id ∈ config.operationIds
  workers : ∃ others, reg.workers = others ++ reg.registry

theorem withinLimits_runningPool (config : PoolConfig) :
    WithinLimits (runningPool config : PoolState σ μ) where
  floor := le_rfl
  threads := le_max_left 1 config.maxThreads
  elements := .inr (Nat.zero_le _)
  goesOn := rfl

theorem Installing.installed {base reg : Registry σ μ} {settings : List PoolConfig}
    (h : Installing base settings reg) (hids : (allIds settings).Nodup) :
    Installed settings reg := by
  have hpool {k : ℕ} (hk : k < settings.length) :
      reg.pools[base.pools.length + k]? = some (runningPool settings[k]) := by
    rw [h.pools, List.getElem?_append_right (Nat.le_add_right _ _), Nat.add_sub_cancel_left,
      List.getElem?_map, List.getElem?_eq_getElem hk]
    rfl
  exact
    { names := h.names
      served := hids
      distinct := by
        rw [h.registry]
        exact List.nodup_range.map fun _ _ => Nat.add_left_cancel
      pools := by
        rw [h.registry]
        refine List.ext_getElem (by simp) fun k hk hk' => ?_
        simp only [List.length_map] at hk'
        simp [hpool hk']
      limits := by
        rw [h.registry]
        intro p hp
        obtain ⟨k, hk, rfl⟩ := List.mem_map.mp hp
        exact ⟨_, hpool (List.mem_range.mp hk), withinLimits_runningPool _⟩
      operations := by
        intro id p
        rw [h.operations]
        constructor
        · rintro ⟨k, config, hconfig, hmem, rfl⟩
          have hk := (List.getElem?_eq_some_iff.mp hconfig).1
          exact ⟨k, config, by simp [h.registry, hk], hconfig, hmem⟩
        · rintro ⟨k, config, hp, hconfig, hmem⟩
          have hk := (List.getElem?_eq_some_iff.mp hconfig).1
          exact ⟨k, config, hconfig, hmem, by simpa [h.registry, hk, eq_comm] using hp⟩
      workers := ⟨base.workers, h.workers⟩ }

theorem foldl_choose_sublist (pools chosen : List PoolConfig) :
    List.Sublist (pools.foldl choose chosen) (chosen ++ pools) := by
  induction pools generalizing chosen with
  | nil => simp
  | cons config pools ih =>
      rw [List.foldl_cons, choose]
      split_ifs
      · exact (ih chosen).trans ((List.sublist_cons_self config pools).append_left chosen)
      · simpa using ih (chosen ++ [config])

/-- How `Configure` ends. It refuses settings that list an operation twice and changes nothing.
It makes the pools of all others, the first for each name. An exception comes from a completion,
from a join, or from the start of a thread. -/
theorem configure_ends (env : Environment σ μ) (reg : Registry σ μ) (pools : List PoolConfig) :
    match configure env reg pools with
    | (after, .returned false) => ¬ (allIds pools).Nodup ∧ after = reg
    | (after, .returned true) => (allIds pools).Nodup ∧ Installed (firstOfNames pools) after
    | (_, .threw) => (allIds pools).Nodup ∧
        ((∃ item, env.completionThrows item = true) ∨ (∃ p, env.joinThrows p = true) ∨
          ∃ p, env.starts p = false) := by
  have hcheck := checkConfigs_nil_isSome_iff pools
  rw [configure]
  by_cases hids : (allIds pools).Nodup
  swap
  · rw [if_neg (mt hcheck.mp hids)]
    exact ⟨hids, rfl⟩
  rw [if_pos (hcheck.mpr hids)]
  obtain ⟨hregistry, hoperations⟩ := joinPools_unpooled env reg.registry
    { reg with registry := [], operationPools := fun _ => none }
  cases hshutdown : shutdown env reg with
  | mk base joined =>
      cases joined with
      | false =>
          refine ⟨hids, (joinPools_threw (congrArg Prod.snd hshutdown)).imp_right .inl⟩
      | true =>
          rw [← shutdown, hshutdown] at hregistry hoperations
          dsimp only at hregistry hoperations ⊢
          rcases (Installing.start hregistry hoperations).installConfigs env pools hids with
            ⟨after, hafter, hinstalling⟩ | ⟨after, p, hafter, hstarts⟩
          · rw [hafter]
            exact ⟨hids, hinstalling.installed
              (hids.sublist ((foldl_choose_sublist pools []).flatMap _))⟩
          · rw [hafter]
            exact ⟨hids, .inr (.inr ⟨p, hstarts⟩)⟩

/-- Either a whole set is installed, or everything is as it was. -/
def AllOrNothing (env : Environment σ μ) (reg : Registry σ μ) (pools : List PoolConfig) : Prop :=
  (∃ settings, Installed settings (configure env reg pools).1) ∨ (configure env reg pools).1 = reg

/-- A system that starts no more threads: the previous pool is gone, and nobody works for the new
one. -/
theorem not_allOrNothing : ¬ ∀ (env : Environment Unit Unit) (reg : Registry Unit Unit)
    (pools : List PoolConfig), AllOrNothing env reg pools := by
  intro h
  let env : Environment Unit Unit :=
    ⟨fun _ => false, fun _ => false, fun _ => false,
      fun _ reg => (reg.pools, reg.inflight, reg.workers)⟩
  let reg : Registry Unit Unit :=
    ⟨⟨[runningPool ⟨"a", 1, 0, 0, .keepWorker, [7]⟩], [0], false, fun _ => 0⟩,
      fun id => if id = 7 then some 0 else none, [0]⟩
  have hregistry : (configure env reg [⟨"b", 1, 0, 0, .keepWorker, [8]⟩]).1.registry = [1] := by
    decide
  have hworkers : (configure env reg [⟨"b", 1, 0, 0, .keepWorker, [8]⟩]).1.workers = [] := by
    decide
  rcases h env reg [⟨"b", 1, 0, 0, .keepWorker, [8]⟩] with ⟨settings, hinstalled⟩ | hsame
  · obtain ⟨others, hothers⟩ := hinstalled.workers
    rw [hregistry, hworkers] at hothers
    simp at hothers
  · rw [hsame] at hregistry
    cases hregistry

end WorkerPools

end Esnacc
