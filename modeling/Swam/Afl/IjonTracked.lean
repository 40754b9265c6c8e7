import Swam.Afl.Ijon
import Mathlib.Data.List.Basic

/-!
# What the IJON bookkeeping tracks

Every report either changes nothing or improves its slot, so the state of any run is determined
by the reports: the maxima exactly, and the updates with one more for each input that was stored.
-/
namespace Swam.Afl.Ijon

/-! ## Reports one by one -/

theorem runningMax_snoc (i : Slot) (before : List Report) (r : Report) :
    runningMax i (before ++ [r]) =
      if r.slot = i then max (runningMax i before) r.value.toNat else runningMax i before := by
  rw [runningMax, runningMax, seen, seen, List.filter_append, List.map_append, List.foldl_append]
  split
  next here => simp [here]
  next elsewhere => simp [elsewhere]

theorem improvements_append (before later : List Report) (r : Report) :
    improvements before (later ++ [r]) =
      improvements before later ++ if Improves (before ++ later) r then [r] else [] := by
  induction later generalizing before with
  | nil => simp [improvements]
  | cons first later ih =>
    rw [List.cons_append, improvements, improvements, ih, List.append_assoc, List.singleton_append]
    split <;> simp

/-- The state after some reports. -/
structure Tracked (before : List Report) (s : State) : Prop where
  maxima : ∀ i, (s.maxMap i).toNat = runningMax i before
  entries : s.numEntries = (activeSlots s).card
  updates : s.numUpdates = (improvements [] before).length +
    ((improvements [] before).filter fun r => Stored r).length
  slots : ∀ i, (s.infos i).slotId = i

theorem tracked_newState : Tracked [] newState where
  maxima _ := rfl
  entries := by
    have none_active : activeSlots newState = ∅ := by
      rw [activeSlots, Finset.filter_eq_empty_iff]
      exact fun i _ => by simp [newState]
    rw [none_active]
    rfl
  updates := rfl
  slots _ := rfl

/-- Storing an input leaves the maxima alone and counts once more if the file was written. -/
theorem storeMaxInput_spec {limit : Int} {s s' : State} {i : Slot} {len : Nat}
    {files : FileResults} (stored : storeMaxInput limit s i len files = some s') :
    s'.maxMap = s.maxMap ∧ s'.numEntries = s.numEntries ∧
      s'.numUpdates = (s.numUpdates + if files.opened = true ∧ files.written = true then 1 else 0) ∧
      ∀ j, (s'.infos j).slotId = (s.infos j).slotId := by
  have same_slots (j : Slot) : (Function.update s.infos i { s.infos i with len } j).slotId =
      (s.infos j).slotId := by
    rw [Function.update_apply]
    split
    next here => rw [here]
    next => rfl
  rw [storeMaxInput] at stored
  split at stored
  next closed =>
    obtain rfl := Option.some.inj stored
    exact ⟨rfl, rfl, by simp_all, same_slots⟩
  split at stored
  next short =>
    obtain rfl := Option.some.inj stored
    exact ⟨rfl, rfl, by simp_all, same_slots⟩
  next opened written =>
    obtain ⟨t, history, rfl⟩ := Option.map_eq_some_iff.mp stored
    have both : files.opened = true ∧ files.written = true := by simp_all
    rw [storeHistory] at history
    split at history
    next =>
      split at history
      · exact nomatch history
      · obtain rfl := Option.some.inj history
        exact ⟨rfl, rfl, by simp [both], same_slots⟩
    next =>
      obtain rfl := Option.some.inj history
      exact ⟨rfl, rfl, by simp [both], same_slots⟩

theorem mem_activeSlots {s : State} {i : Slot} : i ∈ activeSlots s ↔ 0 < s.maxMap i := by
  simp [activeSlots]

/-- One report. -/
theorem updateSlot_tracked {limit : Int} {before : List Report} {s s' : State} {r : Report}
    (tracked : Tracked before s) (step : updateSlot limit s r = some s') :
    Tracked (before ++ [r]) s' := by
  have improves_iff : r.value > s.maxMap r.slot ↔ Improves before r := by
    rw [Improves, ← tracked.maxima, gt_iff_lt, BitVec.lt_def]
  rw [updateSlot] at step
  split at step
  next above =>
    have improves := improves_iff.mp above
    obtain ⟨maxMap, numEntries, numUpdates, slots⟩ := storeMaxInput_spec step
    simp only at maxMap numEntries numUpdates slots
    have positive : 0 < r.value := by
      rw [gt_iff_lt, BitVec.lt_def] at above
      rw [BitVec.lt_def]
      exact Nat.lt_of_le_of_lt (Nat.zero_le _) above
    have active : activeSlots s' = insert r.slot (activeSlots s) := by
      ext i
      rw [Finset.mem_insert, mem_activeSlots, mem_activeSlots, maxMap, Function.update_apply]
      split
      next here => exact ⟨fun _ => .inl here, fun _ => positive⟩
      next elsewhere => exact ⟨.inr, fun either => either.resolve_left elsewhere⟩
    constructor
    · intro i
      rw [maxMap, Function.update_apply, runningMax_snoc]
      rw [Improves] at improves
      by_cases here : i = r.slot
      · rw [if_pos here, if_pos here.symm, here]
        omega
      · rw [if_neg here, if_neg (Ne.symm here), tracked.maxima]
    · rw [numEntries, active]
      have zero_iff : s.maxMap r.slot = 0 ↔ r.slot ∉ activeSlots s := by
        rw [mem_activeSlots, BitVec.lt_def, ← BitVec.toNat_inj]
        simp
      by_cases first : s.maxMap r.slot = 0
      · rw [if_pos first, Finset.card_insert_of_notMem (zero_iff.mp first), tracked.entries]
      · rw [if_neg first, Finset.insert_eq_of_mem (not_not.mp (mt zero_iff.mpr first)),
          tracked.entries]
    · rw [numUpdates, improvements_append, List.nil_append, if_pos improves, List.filter_append,
        List.length_append, List.length_append, tracked.updates]
      by_cases stored : Stored r
      · have both : r.files.opened = true ∧ r.files.written = true := stored
        rw [if_pos both, List.filter_cons_of_pos (by simpa using stored)]
        simp only [List.filter_nil, List.length_singleton]
        omega
      · have not_both : ¬ (r.files.opened = true ∧ r.files.written = true) := stored
        rw [if_neg not_both, List.filter_cons_of_neg (by simpa using stored)]
        simp only [List.filter_nil, List.length_singleton, List.length_nil]
        omega
    · intro i
      rw [slots, tracked.slots]
  next below =>
    obtain rfl := Option.some.inj step
    have no_improvement : ¬ Improves before r := mt improves_iff.mpr below
    constructor
    · intro i
      rw [runningMax_snoc, tracked.maxima]
      split
      next here =>
        rw [Improves, here] at no_improvement
        omega
      next => rfl
    · exact tracked.entries
    · rw [improvements_append, List.nil_append, if_neg no_improvement, List.append_nil]
      exact tracked.updates
    · exact tracked.slots

theorem updateSlots_tracked {limit : Int} {before later : List Report} {s s' : State}
    (tracked : Tracked before s) (run : later.foldlM (updateSlot limit) s = some s') :
    Tracked (before ++ later) s' := by
  induction later generalizing before s with
  | nil =>
    obtain rfl := Option.some.inj run
    rwa [List.append_nil]
  | cons r later ih =>
    rw [List.foldlM_cons] at run
    obtain ⟨t, step, rest⟩ := Option.bind_eq_some_iff.mp run
    have after := ih (updateSlot_tracked tracked step) rest
    rwa [List.append_assoc, List.singleton_append] at after

/-- Whole calls. -/
theorem updates_tracked {limit : Int} {calls : List Call} {s : State}
    (run : updates limit calls newState = some s) : Tracked (reports calls) s := by
  have each : ∀ (calls : List Call) (before : List Report) (t : State), Tracked before t →
      updates limit calls t = some s → Tracked (before ++ reports calls) s := by
    intro calls
    induction calls with
    | nil =>
      intro before t tracked run
      obtain rfl := Option.some.inj run
      rwa [reports, List.flatMap_nil, List.append_nil]
    | cons call calls ih =>
      intro before t tracked run
      rw [updates, List.foldlM_cons] at run
      obtain ⟨u, step, rest⟩ := Option.bind_eq_some_iff.mp run
      have after := ih _ u (updateSlots_tracked tracked step) rest
      rwa [List.append_assoc] at after
  exact each calls [] newState tracked_newState run

/-! ## Picking a slot -/

/-- The walk finds the active slot of the given number. -/
theorem walk_eq (s : State) (rnd : Nat) (slots : List Slot) :
    walk s rnd slots = (slots.filter fun i => s.maxMap i > 0)[rnd]?.map s.infos := by
  induction slots generalizing rnd with
  | nil => rfl
  | cons i slots ih =>
    rw [walk]
    by_cases active : s.maxMap i > 0
    · rw [if_pos active, List.filter_cons_of_pos (by simpa using active)]
      cases rnd with
      | zero => rfl
      | succ rnd =>
        rw [if_neg (Nat.succ_ne_zero rnd), ih]
        rfl
    · rw [if_neg active, List.filter_cons_of_neg (by simpa using active), ih]

theorem length_filter_active (s : State) :
    ((List.finRange mapSizeIjonEntries).filter fun i => s.maxMap i > 0).length =
      (activeSlots s).card := by
  rw [activeSlots, Fin.univ_def, Finset.filter, Finset.card]
  simp

theorem getInput_active {before : List Report} {s : State} (tracked : Tracked before s)
    (random : Nat) :
    (getInput s random = none ↔ s.numEntries = 0) ∧
      ∀ info, getInput s random = some info → 0 < s.maxMap info.slotId ∧ info = s.infos info.slotId := by
  have size := length_filter_active s
  rw [← tracked.entries] at size
  rw [getInput]
  by_cases empty : s.numEntries = 0
  · rw [if_pos empty]
    exact ⟨⟨fun _ => empty, fun _ => rfl⟩, nofun⟩
  · rw [if_neg empty, walk_eq]
    have inside : random % s.numEntries <
        ((List.finRange mapSizeIjonEntries).filter fun i => s.maxMap i > 0).length := by
      rw [size]
      exact Nat.mod_lt _ (Nat.pos_of_ne_zero empty)
    rw [List.getElem?_eq_getElem inside, Option.map_some]
    refine ⟨⟨nofun, fun zero => absurd zero empty⟩, fun info found => ?_⟩
    obtain rfl := Option.some.inj found
    have member := List.getElem_mem inside
    rw [List.mem_filter, decide_eq_true_eq] at member
    rw [tracked.slots]
    exact ⟨member.2, rfl⟩

/-- Every active slot comes up, with a random number that `random()` can return. -/
theorem getInput_reaches {before : List Report} {s : State} (tracked : Tracked before s) {i : Slot}
    (active : 0 < s.maxMap i) : ∃ random < 2 ^ 31, getInput s random = some (s.infos i) := by
  have size := length_filter_active s
  rw [← tracked.entries] at size
  have member : i ∈ (List.finRange mapSizeIjonEntries).filter fun i => s.maxMap i > 0 := by
    simpa using active
  obtain ⟨k, inside, here⟩ := List.getElem_of_mem member
  have some_entries : s.numEntries ≠ 0 := by omega
  have few : s.numEntries ≤ 512 := by
    have := List.length_filter_le (fun i => decide (s.maxMap i > 0))
      (List.finRange mapSizeIjonEntries)
    rwa [List.length_finRange, size] at this
  refine ⟨k, by omega, ?_⟩
  rw [getInput, if_neg some_entries, walk_eq, Nat.mod_eq_of_lt (by omega),
    List.getElem?_eq_getElem inside, here, Option.map_some]

/-! ## The claim about runs -/

/-- In every run the maxima and the number of slots in use are right, and the number of updates is
that of the improvements exactly when no improvement's input has been written. -/
theorem ijon_bookkeeping (limit : Int) (calls : List Call) {s : State}
    (run : updates limit calls newState = some s) :
    (∀ i, (s.maxMap i).toNat = runningMax i (reports calls)) ∧
    s.numEntries = (activeSlots s).card ∧
    (s.numUpdates = (improvements [] (reports calls)).length ↔
      ∀ r ∈ improvements [] (reports calls), ¬ Stored r) ∧
    (∀ random, (getInput s random = none ↔ s.numEntries = 0) ∧
      ∀ info, getInput s random = some info →
        0 < s.maxMap info.slotId ∧ info = s.infos info.slotId) ∧
    ∀ i, 0 < s.maxMap i → ∃ random < 2 ^ 31, getInput s random = some (s.infos i) := by
  have tracked := updates_tracked run
  refine ⟨tracked.maxima, tracked.entries, ?_, getInput_active tracked,
    fun i active => getInput_reaches tracked active⟩
  rw [tracked.updates]
  constructor
  · intro no_more r member stored
    have listed : r ∈ (improvements [] (reports calls)).filter fun r => Stored r := by
      rw [List.mem_filter, decide_eq_true_eq]
      exact ⟨member, stored⟩
    have := List.length_pos_of_mem listed
    omega
  · intro none_stored
    have empty : (improvements [] (reports calls)).filter (fun r => Stored r) = [] := by
      rw [List.filter_eq_nil_iff]
      intro r member
      rw [decide_eq_true_eq]
      exact none_stored r member
    rw [empty]
    rfl

/-- Without a history no run ends. -/
theorem updates_without_history (calls : List Call) (s : State) :
    ∃ s', updates 0 calls s = some s' := by
  have slot (s : State) (r : Report) : ∃ s', updateSlot 0 s r = some s' := by
    rw [updateSlot]
    split
    · rw [storeMaxInput]
      split
      · exact ⟨_, rfl⟩
      · split
        · exact ⟨_, rfl⟩
        · rw [storeHistory, if_neg (by simp)]
          exact ⟨_, rfl⟩
    · exact ⟨s, rfl⟩
  have slots : ∀ (reports : List Report) (s : State),
      ∃ s', reports.foldlM (updateSlot 0) s = some s' := by
    intro reports
    induction reports with
    | nil => exact fun s => ⟨s, rfl⟩
    | cons r reports ih =>
      intro s
      obtain ⟨t, step⟩ := slot s r
      obtain ⟨s', rest⟩ := ih t
      exact ⟨s', by rw [List.foldlM_cons, step]; exact rest⟩
  induction calls generalizing s with
  | nil => exact ⟨s, rfl⟩
  | cons call calls ih =>
    obtain ⟨t, step⟩ := slots ((List.finRange mapSizeIjonEntries).map call.report) s
    obtain ⟨s', rest⟩ := ih t
    refine ⟨s', ?_⟩
    rw [updates, List.foldlM_cons, updateMaxDynamic, step]
    exact rest

/-- Every slot reports 7 and every file is written. -/
private def sevens : Call := ⟨fun _ => 7, 10, fun _ => ⟨true, true, true⟩⟩

theorem ijon_bookkeeping_sevens : ∃ s, updates 0 [sevens] newState = some s ∧
    s.numEntries = (activeSlots s).card := by
  obtain ⟨s, run⟩ := updates_without_history [sevens] newState
  exact ⟨s, run, (ijon_bookkeeping 0 [sevens] run).2.1⟩

/-- An improvement whose input is written counts twice. -/
theorem ijon_updates_doubled : ¬ ∀ (limit : Int) (calls : List Call) (s : State),
    updates limit calls newState = some s →
      s.numUpdates = (improvements [] (reports calls)).length := by
  intro counted
  obtain ⟨s, run⟩ := updates_without_history [sevens] newState
  have tracked := updates_tracked run
  obtain ⟨i, rest, split⟩ : ∃ i rest, List.finRange mapSizeIjonEntries = i :: rest :=
    ⟨_, _, List.finRange_succ⟩
  have improves : Improves [] (sevens.report i) := show 0 < (7 : BitVec 64).toNat by decide
  have first : sevens.report i ∈ improvements [] (reports [sevens]) := by
    rw [reports, List.flatMap_cons, split, List.map_cons, List.cons_append, improvements,
      if_pos improves]
    exact List.mem_cons_self
  have stored : sevens.report i ∈ (improvements [] (reports [sevens])).filter fun r => Stored r := by
    rw [List.mem_filter]
    exact ⟨first, rfl⟩
  have := List.length_pos_of_mem stored
  have := counted 0 [sevens] s run
  rw [tracked.updates] at this
  omega

end Swam.Afl.Ijon
