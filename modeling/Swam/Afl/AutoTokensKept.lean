import Swam.Afl.AutoTokens

/-!
# What `maybe_add_auto` keeps

A call either changes nothing or puts its token into the array and sorts twice. The array keeps
its bound and its distinct tokens, and its front holds the most used ones. The filter of 16-bit
values lets one value through, and use counts can be compared as long as their difference fits
an `int`.
-/
namespace Swam.Afl.AutoTokens

open Lib

/-! ## Interesting words -/

theorem bytes_of_loadWord {a b : Byte} {x : BitVec 32} (load : loadWord 2 [a, b] 0 = x) :
    [a, b] = [nthByte x 0, nthByte x 1] := by
  have low := @nthByte_loadWord [a, b] 2 0 (by decide) 0
  have high := @nthByte_loadWord [a, b] 2 0 (by decide) 1
  rw [load] at low high
  simp [low, high, cell]

/-- What the comparison of a `u16` with a negative `s16` misses is found among the swapped values,
but for -1 and -128. -/
private theorem negative_interesting16 : interesting16.all fun v =>
    castU 2 v = v || castU 2 v = 0xffff || castU 2 v = 0xff80 ||
      interesting16.any fun w => castU 2 v = swap16 w := by
  decide

theorem isBuiltin_of_isInteresting {mem : Token} (interesting : IsInteresting mem)
    (varied : skipsRun mem = false) (other : mem ≠ minus128) : isBuiltin mem = true := by
  rw [isBuiltin, Bool.or_eq_true, Bool.and_eq_true, Bool.and_eq_true, List.any_eq_true,
    List.any_eq_true, decide_eq_true_eq, decide_eq_true_eq]
  rcases interesting with ⟨size, v, known, be, load⟩ | ⟨size, v, known, be, load⟩
  · refine .inl ⟨size, ?_⟩
    cases be with
    | true => exact ⟨v, known, by simpa using .inr load⟩
    | false =>
      have load : loadWord 2 mem 0 = castU 2 v := load
      match mem, size with
      | [a, b], _ =>
        have row := List.all_eq_true.mp negative_interesting16 v known
        simp only [Bool.or_eq_true, decide_eq_true_eq, List.any_eq_true] at row
        rcases row with ((same | run) | missed) | ⟨w, listed, swapped⟩
        · exact ⟨v, known, by simpa using .inl (load.trans same)⟩
        · rw [bytes_of_loadWord (load.trans run)] at varied
          exact absurd varied (by decide)
        · exact absurd (bytes_of_loadWord (load.trans missed)) other
        · exact ⟨w, listed, by simpa using .inr (load.trans swapped)⟩
  · refine .inr ⟨size, v, known, ?_⟩
    cases be with
    | true => simpa using .inr load
    | false => simpa using .inl load

/-- What passes the filters may become an entry. -/
theorem entryKept_of_passes {extras : List Token} {mem : Token} (sorted : SortedByLength extras)
    (pass : passes extras mem = true) (other : mem ≠ minus128) (n : BitVec 32) :
    EntryKept extras ⟨mem, n⟩ := by
  simp only [passes, Bool.and_eq_true, Bool.not_eq_true'] at pass
  obtain ⟨⟨varied, unusual⟩, unmatched⟩ := pass
  constructor
  · intro extra member agree
    have := matchesExtra_of_agrees sorted member agree
    exact absurd (unmatched.symm.trans this) (by decide)
  · intro run
    exact absurd (varied.symm.trans (skipsRun_of_isRun run)) (by decide)
  · intro interesting
    have := isBuiltin_of_isInteresting interesting varied other
    exact absurd (unusual.symm.trans this) (by decide)

/-! ## The array -/

/-- What holds of the entries whatever their order, with use counts that can be compared. -/
structure Collected (extras : List Token) (aExtras : List AutoExtra) : Prop where
  count : aExtras.length ≤ maxAutoExtras
  distinct : Distinct aExtras
  entries : ∀ entry ∈ aExtras, EntryKept extras entry
  hits : ∀ entry ∈ aExtras, entry.hitCnt.toNat < 2 ^ 31

section
variable {extras : List Token} {aExtras aExtras' : List AutoExtra}

theorem Collected.perm (collected : Collected extras aExtras) (perm : aExtras'.Perm aExtras) :
    Collected extras aExtras' where
  count := perm.length_eq ▸ collected.count
  distinct := (perm.pairwise_iff fun differ agree => differ agree.symm).mpr collected.distinct
  entries entry member := collected.entries entry (perm.mem_iff.mp member)
  hits entry member := collected.hits entry (perm.mem_iff.mp member)

/-- Another use of a token. -/
theorem Collected.modify (collected : Collected extras aExtras) {i : Nat}
    (fits : ∀ entry, aExtras[i]? = some entry → entry.hitCnt.toNat + 1 < 2 ^ 31) :
    Collected extras (aExtras.modify i fun entry => { entry with hitCnt := entry.hitCnt + 1 }) := by
  have same_data : (aExtras.modify i fun entry => { entry with hitCnt := entry.hitCnt + 1 }).map
      AutoExtra.data = aExtras.map AutoExtra.data := by
    apply List.ext_getElem?
    intro j
    rw [List.getElem?_map, List.getElem?_map, List.getElem?_modify]
    split
    · rw [Option.map_eq_map, Option.map_map]
      rfl
    · simp
  have counted : ∀ entry ∈ aExtras.modify i fun entry => { entry with hitCnt := entry.hitCnt + 1 },
      ∃ before ∈ aExtras, entry.data = before.data ∧ entry.hitCnt.toNat < 2 ^ 31 := by
    intro entry member
    obtain ⟨j, there⟩ := List.mem_iff_getElem?.mp member
    rw [List.getElem?_modify, Option.map_eq_map, Option.map_eq_some_iff] at there
    obtain ⟨before, at_j, rfl⟩ := there
    refine ⟨before, List.mem_of_getElem? at_j, ?_⟩
    split
    next here =>
      have := fits before (here ▸ at_j)
      refine ⟨rfl, ?_⟩
      simp only [BitVec.toNat_add, show (1 : BitVec 32).toNat = 1 from rfl]
      omega
    next => exact ⟨rfl, collected.hits before (List.mem_of_getElem? at_j)⟩
  constructor
  · rw [List.length_modify]
    exact collected.count
  · have distinct := collected.distinct
    rw [Distinct, ← @List.pairwise_map _ _ _ fun a b : Token => ¬ AgreesNocase a b] at distinct ⊢
    rwa [same_data]
  · intro entry member
    obtain ⟨before, there, data, _⟩ := counted entry member
    have kept := collected.entries before there
    constructor
    · rw [data]
      exact kept.foreign
    · rw [data]
      exact kept.no_run
    · rw [data]
      exact kept.no_interesting
  · intro entry member
    obtain ⟨_, _, _, low⟩ := counted entry member
    exact low

/-- A new token in front; where it stands does not matter. -/
theorem Collected.cons (collected : Collected extras aExtras) {entry : AutoExtra}
    (room : aExtras.length < maxAutoExtras) (kept : EntryKept extras entry)
    (unused : entry.hitCnt = 0) (new : ∀ old ∈ aExtras, ¬ AgreesNocase old.data entry.data) :
    Collected extras (entry :: aExtras) where
  count := room
  distinct := List.pairwise_cons.mpr
    ⟨fun old member agree => new old member agree.symm, collected.distinct⟩
  entries := List.forall_mem_cons.mpr ⟨kept, collected.entries⟩
  hits := List.forall_mem_cons.mpr ⟨by simp [unused], collected.hits⟩

theorem Collected.eraseIdx (collected : Collected extras aExtras) (i : Nat) :
    Collected extras (aExtras.eraseIdx i) where
  count := Nat.le_trans (List.length_eraseIdx_le aExtras i) collected.count
  distinct := collected.distinct.sublist (List.eraseIdx_sublist ..)
  entries entry member := collected.entries entry (List.mem_of_mem_eraseIdx member)
  hits entry member := collected.hits entry (List.mem_of_mem_eraseIdx member)

theorem record_collected (collected : Collected extras aExtras) (call : AutoCall)
    (kept : EntryKept extras ⟨call.mem, 0⟩)
    (fits : ∀ entry ∈ aExtras, AgreesNocase entry.data call.mem →
      entry.hitCnt.toNat + 1 < 2 ^ 31) :
    Collected extras (record call aExtras) := by
  rw [record]
  split
  next i found =>
    obtain ⟨inside, hit, _⟩ := List.findIdx?_eq_some_iff_getElem.mp found
    apply collected.modify
    intro entry here
    obtain rfl := Option.some.inj ((List.getElem?_eq_getElem inside).symm.trans here)
    exact fits _ (List.getElem_mem inside) (matchesAuto_iff.mp hit)
  next absent =>
    have new : ∀ old ∈ aExtras, ¬ AgreesNocase old.data call.mem := by
      intro old member agree
      have := List.findIdx?_eq_none_iff.mp absent old member
      exact absurd (this.symm.trans (matchesAuto_iff.mpr agree)) (by decide)
    split
    next room =>
      exact (collected.cons room kept rfl new).perm (List.perm_append_singleton _ _)
    next full =>
      have size : aExtras.length = maxAutoExtras := Nat.le_antisymm collected.count (by omega)
      have inside : maxAutoExtras / 2 + call.rand < aExtras.length := by
        have := call.rand.isLt
        rw [size]
        simp only [maxAutoExtras, useAutoExtras] at this ⊢
        omega
      have room : (aExtras.eraseIdx (maxAutoExtras / 2 + call.rand)).length < maxAutoExtras := by
        rw [List.length_eraseIdx_of_lt inside]
        omega
      refine ((collected.eraseIdx _).cons room kept rfl fun old member => ?_).perm
        (set_perm_cons_eraseIdx inside _)
      exact new old (List.mem_of_mem_eraseIdx member)

/-! ## The two sorts -/

theorem sortAutoExtras_perm (call : AutoCall) : (sortAutoExtras call aExtras).Perm aExtras := by
  have top := call.lengthSort.perm
    ((call.useSort.sort aExtras).take (min useAutoExtras aExtras.length))
  have whole := top.append_right
    ((call.useSort.sort aExtras).drop (min useAutoExtras aExtras.length))
  rw [List.take_append_drop] at whole
  exact whole.trans (call.useSort.perm aExtras)

/-- Below 2^31 the difference has the sign that it should have. -/
theorem compareUse_iff {a b : BitVec 32} (small_a : a.toNat < 2 ^ 31) (small_b : b.toNat < 2 ^ 31) :
    (b - a).toInt ≤ 0 ↔ b.toNat ≤ a.toNat := by
  rw [BitVec.toInt_eq_toNat_cond, BitVec.toNat_sub]
  split <;> omega

theorem ranked_use (hits : ∀ entry ∈ aExtras, entry.hitCnt.toNat < 2 ^ 31) :
    Ranked (fun a b : AutoExtra => (b.hitCnt - a.hitCnt).toInt ≤ 0) aExtras := by
  refine ⟨fun entry => -entry.hitCnt.toNat, fun a first b second => ?_⟩
  have := compareUse_iff (hits a first) (hits b second)
  simp only [this]
  omega

theorem ranked_autoLength :
    Ranked (fun a b : AutoExtra => a.data.length ≤ b.data.length) aExtras :=
  ⟨fun a => a.data.length, fun _ _ _ _ => Int.ofNat_le.symm⟩

theorem sortAutoExtras_topSorted (call : AutoCall)
    (hits : ∀ entry ∈ aExtras, entry.hitCnt.toNat < 2 ^ 31) :
    TopSorted (sortAutoExtras call aExtras) := by
  have size : (sortAutoExtras call aExtras).length = aExtras.length :=
    (sortAutoExtras_perm call).length_eq
  have top_size : (call.lengthSort.sort
      ((call.useSort.sort aExtras).take (min useAutoExtras aExtras.length))).length =
      min useAutoExtras aExtras.length := by
    rw [Qsort.length_sort, List.length_take, Qsort.length_sort]
    omega
  have taken : (sortAutoExtras call aExtras).take (min useAutoExtras aExtras.length) =
      call.lengthSort.sort
        ((call.useSort.sort aExtras).take (min useAutoExtras aExtras.length)) :=
    List.take_left' top_size
  have dropped : (sortAutoExtras call aExtras).drop (min useAutoExtras aExtras.length) =
      (call.useSort.sort aExtras).drop (min useAutoExtras aExtras.length) :=
    List.drop_left' top_size
  have by_use := call.useSort.sorted aExtras (ranked_use hits)
  rw [← List.take_append_drop (min useAutoExtras aExtras.length) (call.useSort.sort aExtras),
    List.pairwise_append] at by_use
  constructor
  · rw [size, taken]
    exact call.lengthSort.sorted _ ranked_autoLength
  · intro a in_top b in_rest
    rw [size, taken, Qsort.mem_sort] at in_top
    rw [size, dropped] at in_rest
    have sorted := by_use.2.2 a in_top b in_rest
    have small_a := hits a (call.useSort.mem_sort.mp (List.mem_of_mem_take in_top))
    have small_b := hits b (call.useSort.mem_sort.mp (List.mem_of_mem_drop in_rest))
    exact (compareUse_iff small_a small_b).mp sorted

end

/-! ## Runs -/

/-- A state between two safe calls. -/
structure Between (extras : List Token) (s : AutoDictionary) : Prop where
  collected : Collected extras s.aExtras
  top : TopSorted s.aExtras

theorem between_start (extras : List Token) : Between extras ⟨[], false⟩ :=
  ⟨⟨Nat.zero_le _, .nil, nofun, nofun⟩, ⟨by simp, by simp⟩⟩

theorem maybeAddAuto_between {extras : List Token} {s : AutoDictionary} {call : AutoCall}
    (sorted : SortedByLength extras) (between : Between extras s) (safe : Safe extras s call) :
    Between extras (maybeAddAuto extras s call) := by
  rw [maybeAddAuto]
  split
  next pass =>
    obtain ⟨other, fits⟩ := safe pass
    have recorded := record_collected between.collected call
      (entryKept_of_passes sorted pass other 0) fits
    exact ⟨recorded.perm (sortAutoExtras_perm call),
      sortAutoExtras_topSorted call recorded.hits⟩
  next => exact between

theorem maybeAddAutos_between {extras : List Token} {calls : List AutoCall} {s : AutoDictionary}
    (sorted : SortedByLength extras) (between : Between extras s)
    (safe : AllSafe extras calls s) : Between extras (maybeAddAutos extras calls s) := by
  induction calls generalizing s with
  | nil => exact between
  | cons call calls ih =>
    obtain ⟨first, later⟩ := safe
    exact ih (maybeAddAuto_between sorted between first) later

/-- Safe calls keep what the entries are to be. -/
theorem autoExtras_kept {extras : List Token} (sorted : SortedByLength extras)
    {calls : List AutoCall} (safe : AllSafe extras calls ⟨[], false⟩) :
    AutoKept extras (maybeAddAutos extras calls ⟨[], false⟩).aExtras :=
  have between := maybeAddAutos_between sorted (between_start extras) safe
  ⟨between.collected.count, between.collected.distinct, between.collected.entries, between.top⟩

theorem autoExtras_kept_letters :
    AutoKept [[0x61]] (maybeAddAutos [[0x61]]
      [⟨[0x41, 0x62, 0x43], ⟨0, by decide⟩, .ofMergeSort _, .ofMergeSort _⟩] ⟨[], false⟩).aExtras :=
  autoExtras_kept (by simp [SortedByLength])
    ⟨fun _ => ⟨by decide, fun _ member => absurd member List.not_mem_nil⟩, trivial⟩

/-- The value -128 is taken in. -/
theorem autoExtras_not_kept : ¬ ∀ (extras : List Token) (calls : List AutoCall),
    SortedByLength extras → AutoKept extras (maybeAddAutos extras calls ⟨[], false⟩).aExtras := by
  intro kept
  have pass : passes [] minus128 = true := by decide
  have taken : (maybeAddAutos [] [⟨minus128, ⟨0, by decide⟩, .ofMergeSort _, .ofMergeSort _⟩]
      ⟨[], false⟩).aExtras = [⟨minus128, 0⟩] := by
    simp [maybeAddAutos, maybeAddAuto, pass, record, sortAutoExtras, maxAutoExtras, useAutoExtras]
  have entries := (kept [] [⟨minus128, ⟨0, by decide⟩, .ofMergeSort _, .ofMergeSort _⟩] .nil).entries
  rw [taken] at entries
  refine (entries _ (List.mem_singleton_self _)).no_interesting (.inl ⟨rfl, ?_⟩)
  exact ⟨BitVec.ofInt 32 (-128), by decide, false, by decide⟩

end Swam.Afl.AutoTokens
