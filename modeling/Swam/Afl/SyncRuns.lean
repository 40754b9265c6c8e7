import Mathlib.Data.List.Infix
import Swam.Afl.SyncFuzzers
import Swam.Lib.Trace

/-!
# Every queue is read in order

The names keep the files of a queue in the order in which they came, and a counter finds its file
again by its name. So a pass goes on where the last one ended, and nothing is left out.
-/
namespace Swam.Afl.Syncing

open Lib

/-! ## Names in order -/

def Fuzzer.names (f : Fuzzer) : List Name := f.queue.map (·.name)

/-- Each name has the number of its place. -/
def Numbered (names : List Name) : Prop :=
  ∀ i name, names[i]? = some name → ∃ description, name = caseName i description

theorem Numbered.sorted {names : List Name} (numbered : Numbered names) (room : names.length < 10 ^ 6) :
    names.Pairwise (· < ·) := by
  rw [List.pairwise_iff_getElem]
  intro i j first second less
  obtain ⟨d, at_⟩ := numbered i _ (List.getElem?_eq_getElem first)
  obtain ⟨e, later⟩ := numbered j _ (List.getElem?_eq_getElem second)
  rw [at_, later]
  exact caseName_lt less (Nat.lt_trans second room) d e

theorem Fuzzer.alphasort_dirNames {f : Fuzzer} (numbered : Numbered f.names)
    (room : f.names.length < 10 ^ 6) : alphasort f.dirNames = f.dirNames := by
  apply alphasort_eq (List.Perm.refl _)
  unfold Fuzzer.dirNames
  refine List.pairwise_append.mpr ⟨by decide, numbered.sorted room, ?_⟩
  intro dots member name inQueue
  obtain ⟨i, inside, rfl⟩ := List.mem_iff_getElem.mp inQueue
  obtain ⟨d, same⟩ := numbered i _ (List.getElem?_eq_getElem inside)
  have first : ∃ rest, dots = '.' :: rest := by
    simp only [List.mem_cons, List.not_mem_nil, or_false] at member
    rcases member with rfl | rfl | rfl
    · exact ⟨_, rfl⟩
    · exact ⟨_, rfl⟩
    · exact ⟨_, rfl⟩
  obtain ⟨rest, rfl⟩ := first
  rw [same]
  exact List.Lex.rel (by decide)

/-- A search for a place finds what is there from this place on. -/
theorem dropWhile_eq_drop {α : Type} {p : α → Bool} {items : List α} {k : Nat}
    (before : ∀ i a, items[i]? = some a → i < k → p a = true)
    (here : ∀ a, items[k]? = some a → p a = false) : items.dropWhile p = items.drop k := by
  induction items generalizing k with
  | nil => simp
  | cons a items ih =>
    cases k with
    | zero => simp [here a rfl]
    | succ k =>
      rw [List.dropWhile_cons, if_pos (before 0 a rfl (Nat.succ_pos k)), List.drop_succ_cons]
      exact ih (fun i b at_ less => before (i + 1) b (by simpa using at_) (Nat.succ_lt_succ less))
        fun b at_ => here b (by simpa using at_)

/-- The names from the counter on. -/
theorem Fuzzer.newNames {f : Fuzzer} (numbered : Numbered f.names) (room : f.names.length < 10 ^ 6)
    {k : Nat} (inside : k ≤ f.names.length) :
    ((alphasort f.dirNames).dropWhile fun name => name.take 9 ≠ (tag k).take 9) = f.names.drop k := by
  have small : k < 10 ^ 6 := Nat.lt_of_le_of_lt inside room
  have whole : (tag k).take 9 = tag k := List.take_of_length_le (Nat.le_of_eq (length_tag small))
  have told : ∀ i name, f.names[i]? = some name → (name.take 9 = tag k ↔ i = k) := by
    intro i name at_
    obtain ⟨d, rfl⟩ := numbered i name at_
    have bound : i < 10 ^ 6 := Nat.lt_trans (List.getElem?_eq_some_iff.mp at_).1 room
    rw [take_caseName bound, tag_inj bound small]
  rw [Fuzzer.alphasort_dirNames numbered room, whole]
  -- The three entries with a dot come first, and are passed over with the files below the counter.
  have dots : f.dirNames.drop (3 + k) = f.names.drop k := by
    unfold Fuzzer.dirNames Fuzzer.names
    rw [List.drop_append]
    simp
  rw [← dots]
  have place : ∀ i name, f.dirNames[i]? = some name → (name.take 9 = tag k ↔ i = 3 + k) := by
    intro i name at_
    unfold Fuzzer.dirNames at at_
    rcases Nat.lt_or_ge i 3 with early | late
    · rw [List.getElem?_append_left (by exact early)] at at_
      have other : name.take 9 ≠ tag k := by
        intro same
        have initial : (tag k).head? = some 'i' := rfl
        rw [← same] at initial
        obtain rfl | rfl | rfl : i = 0 ∨ i = 1 ∨ i = 2 := by omega
        · cases at_
          contradiction
        · cases at_
          contradiction
        · cases at_
          contradiction
      exact iff_of_false other (by omega)
    · rw [List.getElem?_append_right (by exact late)] at at_
      rw [told (i - 3) name at_]
      omega
  apply dropWhile_eq_drop
  · intro i name at_ less
    have elsewhere : name.take 9 ≠ tag k := by
      intro same
      have := (place i name at_).mp same
      omega
    simpa using elsewhere
  · intro name at_
    simpa using (place _ name at_).mpr rfl

/-! ## What a fuzzer knows -/

/-- Where the name of a file in the queue comes from. -/
def Fuzzer.Told (f : Fuzzer) (i : Nat) (name : Name) : Prop :=
  (∃ execs useName, name = pivotName i execs useName) ∨
    (∃ op newBits fileExtension, name = queueName i op none newBits fileExtension) ∨
    ∃ look ∈ f.looks, (∃ content, look.outcome = .tried content) ∧ ∃ op newBits fileExtension,
      name = queueName i op (some (look.party.name, look.syncingCase)) newBits fileExtension

/-- A file that was known came from the fuzzer, and one that was run did not, unless it was there
when the fuzzer began. -/
def Fuzzer.Right (f : Fuzzer) (me : SyncId) (look : Look) : Prop :=
  match look.outcome with
  | .known => isKnownCase me.name look.name = true
  | .tried _ => isKnownCase me.name look.name = true → look.syncingCase + 2 < f.present look.party
  | _ => True

/-- A fuzzer among queues with these names. -/
structure Fuzzer.Inv (all : SyncId → List Name) (me : SyncId) (f : Fuzzer) : Prop where
  told : ∀ i name, f.names[i]? = some name → f.Told i name
  counted : ∀ q, f.synced q ≤ (all q).length
  seen : ∀ q, f.present q ≤ (all q).length
  starts : ∀ q maxStartId, f.maxFileOf q = some maxStartId → maxStartId + 1 ≤ f.present q
  complete : ∀ q k, k < f.synced q → ∃ look ∈ f.looks, look.party = q ∧ look.syncingCase = k
  looked : ∀ look ∈ f.looks, (all look.party)[look.syncingCase]? = some look.name ∧ f.Right me look
  other : ∀ pass, f.pass = some pass → pass.party ≠ me
  left : ∀ pass, f.pass = some pass → pass.nextMinAccept ≤ (all pass.party).length ∧
    pass.names <+: (all pass.party).drop pass.nextMinAccept
  since : ∀ pass, f.pass = some pass →
    pass.maxStartId = 0 ∨ pass.maxStartId + 1 ≤ f.present pass.party
  passed : ∀ pass, f.pass = some pass → ∀ k, k < pass.nextMinAccept →
    ∃ look ∈ f.looks, look.party = pass.party ∧ look.syncingCase = k

variable {all all' : SyncId → List Name} {me : SyncId} {f : Fuzzer}

theorem prefix_drop {α : Type} {a b : List α} (before : a <+: b) (k : Nat) : a.drop k <+: b.drop k := by
  obtain ⟨rest, rfl⟩ := before
  rw [List.drop_append]
  exact List.prefix_append _ _

/-- Queues only grow. -/
theorem Fuzzer.Inv.mono (inv : f.Inv all me) (grown : ∀ q, all q <+: all' q) : f.Inv all' me where
  told := inv.told
  counted q := Nat.le_trans (inv.counted q) (grown q).length_le
  seen q := Nat.le_trans (inv.seen q) (grown q).length_le
  starts := inv.starts
  complete := inv.complete
  looked look member := by
    obtain ⟨at_, right⟩ := inv.looked look member
    refine ⟨?_, right⟩
    obtain ⟨rest, same⟩ := grown look.party
    rw [← same, List.getElem?_append_left (List.getElem?_eq_some_iff.mp at_).1]
    exact at_
  other := inv.other
  left pass walking := by
    obtain ⟨bound, names⟩ := inv.left pass walking
    exact ⟨Nat.le_trans bound (grown _).length_le, names.trans (prefix_drop (grown _) _)⟩
  since := inv.since
  passed := inv.passed

/-! ## What each action keeps -/

theorem Fuzzer.Told.mono {g : Fuzzer} {i : Nat} {name : Name} (told : f.Told i name)
    (kept : ∀ look ∈ f.looks, look ∈ g.looks) : g.Told i name := by
  rcases told with seed | own | ⟨look, member, tried, said⟩
  · exact .inl seed
  · exact .inr (.inl own)
  · exact .inr (.inr ⟨look, kept look member, tried, said⟩)

theorem Fuzzer.Told.numbered {i : Nat} {name : Name} (told : f.Told i name) :
    ∃ description, name = caseName i description := by
  rcases told with ⟨_, _, rfl⟩ | ⟨_, _, _, rfl⟩ | ⟨_, _, _, _, _, _, rfl⟩
  · exact ⟨_, rfl⟩
  · exact ⟨_, rfl⟩
  · exact ⟨_, rfl⟩

theorem Fuzzer.names_save (f : Fuzzer) (fileExtension : Option Name) (op : OpState)
    (syncing : Option (Name × Nat)) (newBits : Nat) (content : Content) :
    (f.save fileExtension op syncing newBits content).names =
      f.names ++ [queueName f.names.length op syncing newBits fileExtension] := by
  simp [Fuzzer.save, Fuzzer.names]

/-- A file that is saved is told of by its name. -/
theorem Fuzzer.told_save {g : Fuzzer} {fileExtension : Option Name} {op : OpState}
    {syncing : Option (Name × Nat)} {newBits : Nat} {content : Content}
    (same : g.names = (f.save fileExtension op syncing newBits content).names)
    (kept : ∀ look ∈ f.looks, look ∈ g.looks) (told : ∀ i name, f.names[i]? = some name → f.Told i name)
    (new : g.Told f.names.length (queueName f.names.length op syncing newBits fileExtension)) :
    ∀ i name, g.names[i]? = some name → g.Told i name := by
  intro i name at_
  rw [same, Fuzzer.names_save] at at_
  -- An old file is told of as before; the only new one is the one that is saved.
  rcases Nat.lt_trichotomy i f.names.length with early | rfl | late
  · rw [List.getElem?_append_left early] at at_
    exact (told i name at_).mono kept
  · rw [List.getElem?_concat_length] at at_
    cases at_
    exact new
  · rw [List.getElem?_eq_none (by simp; omega)] at at_
    cases at_

theorem Fuzzer.Inv.find (inv : f.Inv all me) (fileExtension : Option Name) (op : OpState) (newBits : Nat)
    (content : Content) : (f.save fileExtension op none newBits content).Inv all me where
  told := Fuzzer.told_save rfl (fun _ member => member) inv.told (.inr (.inl ⟨_, _, _, rfl⟩))
  counted := inv.counted
  seen := inv.seen
  starts := inv.starts
  complete := inv.complete
  looked := inv.looked
  other := inv.other
  left := inv.left
  since := inv.since
  passed := inv.passed

theorem Fuzzer.names_trim (f : Fuzzer) (i : Nat) (content : Content) :
    ({ f with queue := f.queue.modify i fun file => { file with content } } : Fuzzer).names = f.names := by
  apply List.ext_getElem?
  intro j
  simp only [Fuzzer.names, List.getElem?_map, List.getElem?_modify]
  by_cases here : i = j
  · cases f.queue[j]? <;> simp [here]
  · cases f.queue[j]? <;> simp [here]

theorem Fuzzer.Inv.trim (inv : f.Inv all me) (i : Nat) (content : Content) :
    ({ f with queue := f.queue.modify i fun file => { file with content } } : Fuzzer).Inv all me where
  told := by
    intro j name at_
    rw [Fuzzer.names_trim] at at_
    exact inv.told j name at_
  counted := inv.counted
  seen := inv.seen
  starts := inv.starts
  complete := inv.complete
  looked := inv.looked
  other := inv.other
  left := inv.left
  since := inv.since
  passed := inv.passed

/-- All files of a queue are counted, and nothing else in its directory. -/
theorem Fuzzer.count_dirNames {g : Fuzzer} (numbered : Numbered g.names) :
    (g.dirNames.filter fun name => name.head? ≠ some '.').length = g.names.length := by
  have whole : g.names.filter (fun name => name.head? ≠ some '.') = g.names := by
    apply List.filter_eq_self.mpr
    intro name member
    obtain ⟨i, inside, rfl⟩ := List.mem_iff_getElem.mp member
    obtain ⟨d, same⟩ := numbered i _ (List.getElem?_eq_getElem inside)
    rw [same]
    rfl
  unfold Fuzzer.dirNames
  rw [List.filter_append, List.length_append]
  exact (Nat.zero_add _).trans (congrArg List.length whole)

theorem Fuzzer.Inv.checkSync (inv : f.Inv all me) (idle : f.pass = none) {party : SyncId} {g : Fuzzer}
    (numbered : Numbered g.names) (names : all party = g.names) : (f.checkSync party g).Inv all me := by
  have count := Fuzzer.count_dirNames numbered
  -- A later count finds at least as many files, so what was right to run stays right.
  have grown : ∀ q, f.present q ≤ Function.update f.present party g.names.length q := by
    refine (Function.forall_update_iff f.present fun q count => f.present q ≤ count).mpr ⟨?_, ?_⟩
    · rw [← names]
      exact inv.seen party
    · exact fun q _ => Nat.le_refl _
  have right : ∀ look, f.Right me look → ∀ maxFileOf, Fuzzer.Right
      { f with present := Function.update f.present party g.names.length, maxFileOf } me look := by
    intro look right maxFileOf
    unfold Fuzzer.Right at right ⊢
    cases outcome : look.outcome with
    | unopened | badSize => trivial
    | known =>
      rw [outcome] at right
      exact right
    | tried content =>
      rw [outcome] at right
      exact fun known => Nat.lt_of_lt_of_le (right known) (grown _)
  have seen : ∀ q, Function.update f.present party g.names.length q ≤ (all q).length := by
    refine (Function.forall_update_iff f.present fun q count => count ≤ (all q).length).mpr ⟨?_, ?_⟩
    · rw [names]
    · exact fun q _ => inv.seen q
  have held {maxFileOf : SyncId → Option Nat} (starts : ∀ q maxStartId, maxFileOf q = some maxStartId →
      maxStartId + 1 ≤ Function.update f.present party g.names.length q) : Fuzzer.Inv all me
      { f with present := Function.update f.present party g.names.length, maxFileOf } :=
    { told := inv.told
      counted := inv.counted
      seen := seen
      starts := starts
      complete := inv.complete
      looked := fun look member => ⟨(inv.looked look member).1, right look (inv.looked look member).2 _⟩
      other := by simp [idle]
      left := by simp [idle]
      since := by simp [idle]
      passed := by simp [idle] }
  have old : ∀ q maxStartId, f.maxFileOf q = some maxStartId →
      maxStartId + 1 ≤ Function.update f.present party g.names.length q :=
    fun q maxStartId written => Nat.le_trans (inv.starts q maxStartId written) (grown q)
  unfold Fuzzer.checkSync
  rw [count]
  dsimp only
  split
  · exact held old
  next some_ =>
    apply held
    intro q maxStartId written
    by_cases here : q = party
    · subst here
      rw [Function.update_self] at written ⊢
      cases written
      omega
    · rw [Function.update_of_ne here] at written
      exact old q maxStartId written

theorem Fuzzer.Inv.resetCounter (inv : f.Inv all me) (party : SyncId) : (f.resetCounter party).Inv all me := by
  have less : ∀ q, Function.update f.synced party 0 q ≤ f.synced q :=
    (Function.forall_update_iff f.synced fun q counter => counter ≤ f.synced q).mpr
      ⟨Nat.zero_le _, fun q _ => Nat.le_refl _⟩
  exact { inv with
    counted := fun q => Nat.le_trans (less q) (inv.counted q)
    complete := fun q k below => inv.complete q k (Nat.lt_of_lt_of_le below (less q)) }

theorem Fuzzer.Inv.beginPass (inv : f.Inv all me) {party : SyncId} (different : party ≠ me) {g : Fuzzer}
    (numbered : Numbered g.names) (room : g.names.length < 10 ^ 6) (names : all party = g.names) :
    (f.beginPass party g).Inv all me := by
  have removed : Fuzzer.Inv all me (if (f.maxFileOf party).getD 0 < f.synced party then
      { f with maxFileOf := Function.update f.maxFileOf party none } else f) := by
    split
    · refine { inv with starts := ?_ }
      intro q maxStartId written
      dsimp only at written ⊢
      by_cases here : q = party
      · subst here
        rw [Function.update_self] at written
        cases written
      · rw [Function.update_of_ne here] at written
        exact inv.starts q maxStartId written
    · exact inv
  -- The counter is within the queue, so the search by name finds its file or the end.
  have inside : f.synced party ≤ g.names.length := by
    rw [← names]
    exact inv.counted party
  unfold Fuzzer.beginPass
  dsimp only
  rw [Fuzzer.newNames numbered room inside]
  split
  · exact removed
  · have same : ∀ (P : Fuzzer → Prop), P f → P { f with maxFileOf := Function.update f.maxFileOf party none } →
        P (if (f.maxFileOf party).getD 0 < f.synced party then
          { f with maxFileOf := Function.update f.maxFileOf party none } else f) := by
      intro P first second
      split
      · exact second
      · exact first
    have looks := same (fun h => h.looks = f.looks) rfl rfl
    have present := same (fun h => h.present = f.present) rfl rfl
    refine { removed with other := ?_, left := ?_, since := ?_, passed := ?_ }
    · rintro pass ⟨⟩
      exact different
    · rintro pass ⟨⟩
      refine ⟨inv.counted party, ?_⟩
      rw [names]
    · rintro pass ⟨⟩
      dsimp only
      rw [present]
      cases written : f.maxFileOf party with
      | none => exact .inl rfl
      | some maxStartId => exact .inr (inv.starts party maxStartId written)
    · rintro pass ⟨⟩
      dsimp only
      rw [looks]
      exact inv.complete party

theorem Fuzzer.Inv.idle (inv : f.Inv all me) : Fuzzer.Inv all me { f with pass := none } :=
  { inv with
    other := by simp
    left := by simp
    since := by simp
    passed := by simp }

theorem Fuzzer.Inv.finishPass (inv : f.Inv all me) {pass : Pass} (walking : f.pass = some pass) :
    (f.finishPass pass).Inv all me := by
  refine { inv.idle with counted := ?_, complete := ?_ }
  · intro q
    dsimp only [Fuzzer.finishPass]
    by_cases here : q = pass.party
    · subst here
      rw [Function.update_self]
      exact (inv.left pass walking).1
    · rw [Function.update_of_ne here]
      exact inv.counted q
  · intro q k below
    dsimp only [Fuzzer.finishPass] at below ⊢
    by_cases here : q = pass.party
    · subst here
      rw [Function.update_self] at below
      exact inv.passed pass walking k below
    · rw [Function.update_of_ne here] at below
      exact inv.complete q k below

variable {pass : Pass} {name : Name} {names : List Name}

/-- The file whose turn it is has the number of the counter. -/
theorem Fuzzer.Inv.next (inv : f.Inv all me) (walking : f.pass = some pass)
    (turn : pass.names = name :: names) :
    (all pass.party)[pass.nextMinAccept]? = some name ∧
      names <+: (all pass.party).drop (pass.nextMinAccept + 1) := by
  obtain ⟨rest, same⟩ := (inv.left pass walking).2
  rw [turn, List.cons_append] at same
  constructor
  · rw [← List.head?_drop, ← same]
    rfl
  · rw [← List.tail_drop, ← same]
    exact List.prefix_append _ _

/-- After a look the pass goes on with the next file. -/
theorem Fuzzer.Inv.lookAt (inv : f.Inv all me) (walking : f.pass = some pass)
    (turn : pass.names = name :: names) {outcome : Outcome}
    (right : f.Right me ⟨pass.party, pass.nextMinAccept, name, outcome⟩) : Fuzzer.Inv all me
      { f with
        pass := some { pass with names, nextMinAccept := pass.nextMinAccept + 1 }
        looks := ⟨pass.party, pass.nextMinAccept, name, outcome⟩ :: f.looks } := by
  obtain ⟨at_, rest⟩ := inv.next walking turn
  refine ⟨?_, inv.counted, inv.seen, inv.starts, ?_, ?_, ?_, ?_, ?_, ?_⟩
  · intro i told here
    exact (inv.told i told here).mono fun _ member => List.mem_cons_of_mem _ member
  · intro q k below
    obtain ⟨look, member, here⟩ := inv.complete q k below
    exact ⟨look, List.mem_cons_of_mem _ member, here⟩
  · intro look member
    rcases List.mem_cons.mp member with rfl | earlier
    · exact ⟨at_, right⟩
    · exact inv.looked look earlier
  · rintro _ ⟨⟩
    exact inv.other pass walking
  · rintro _ ⟨⟩
    exact ⟨(List.getElem?_eq_some_iff.mp at_).1, rest⟩
  · rintro _ ⟨⟩
    exact inv.since pass walking
  · -- below the new counter there is one more file, the one just looked at
    rintro _ ⟨⟩ k below
    rcases Nat.lt_or_ge k pass.nextMinAccept with earlier | here
    · obtain ⟨look, member, same⟩ := inv.passed pass walking k earlier
      exact ⟨look, List.mem_cons_of_mem _ member, same⟩
    · refine ⟨_, List.mem_cons_self, rfl, ?_⟩
      dsimp only at below ⊢
      omega

theorem Fuzzer.Inv.examine (inv : f.Inv all me) (walking : f.pass = some pass)
    (turn : pass.names = name :: names) (room : (all pass.party).length < 10 ^ 6) (opts : Options)
    (g : Fuzzer) (opens stopSoon : Bool) (kept : Option (OpState × Nat)) :
    (f.examine opts me g pass name names opens stopSoon kept).Inv all me := by
  have bound := (List.getElem?_eq_some_iff.mp (inv.next walking turn).1).1
  -- The number of a file in the queue is far from the end of `u32`.
  have counter : (pass.nextMinAccept + 1) % 2 ^ 32 = pass.nextMinAccept + 1 := Nat.mod_eq_of_lt (by omega)
  unfold Fuzzer.examine
  dsimp only
  rw [counter]
  split
  · exact inv.lookAt walking turn trivial
  next file _ =>
    split
    · split
      next new =>
        have right : f.Right me ⟨pass.party, pass.nextMinAccept, name, .tried file.content⟩ := by
          intro known
          rcases new with there | unknown
          · -- it was there when the files were counted, with one more behind it
            rcases inv.since pass walking with none_ | counted
            · omega
            · dsimp only
              omega
          · rw [unknown] at known
            cases known
        have after := inv.lookAt walking turn right
        split
        · exact after.idle
        · split
          · exact after
          · refine { after with told := ?_ }
            refine Fuzzer.told_save rfl (fun _ member => member) after.told ?_
            exact .inr (.inr ⟨_, List.mem_cons_self, ⟨_, rfl⟩, _, _, _, rfl⟩)
      next old =>
        have known : isKnownCase me.name name = true := by
          simp only [not_or, Bool.not_eq_false] at old
          exact old.2
        exact inv.lookAt walking turn known
    · exact inv.lookAt walking turn trivial

end Swam.Afl.Syncing
