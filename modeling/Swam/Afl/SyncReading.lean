import Swam.Afl.SyncRuns

/-!
# What a campaign reads

In every order of the steps of the fuzzers each reads every other queue from its beginning on and in
order, and the names tell where a file came from.
-/
namespace Swam.Afl.Syncing

open Lib

variable {opts : Options} {s s' : Fleet} {acts : List Act}

def Reachable (opts : Options) : List Act → Fleet → Prop :=
  Trace Started fun s act s' => step opts s act = some s'

/-! ## The steps of the fleet -/

/-- A step changes one fuzzer. -/
theorem step_cases {act : Act} (took : step opts s act = some s') :
    ∃ me f, s' = Function.update s me f ∧
      ((∃ op newBits content, (s me).pass = none ∧
          f = (s me).save (opts.fileExtension me) op none newBits content) ∨
        (∃ i content, (s me).pass = none ∧
          f = { s me with queue := (s me).queue.modify i fun file => { file with content } }) ∨
        (∃ party, (s me).pass = none ∧ party ≠ me ∧ f = (s me).checkSync party (s party)) ∨
        (∃ party, act = .restarted me party ∧ (s me).pass = none ∧ f = (s me).resetCounter party) ∨
        (∃ party, (s me).pass = none ∧ party ≠ me ∧ f = (s me).beginPass party (s party)) ∨
        (∃ opens stopSoon kept pass name names, act = .examine me opens stopSoon kept ∧
          (s me).pass = some pass ∧ pass.names = name :: names ∧
          f = (s me).examine opts me (s pass.party) pass name names opens stopSoon kept) ∨
        ∃ pass, (s me).pass = some pass ∧ pass.names = [] ∧ f = (s me).finishPass pass) := by
  cases act with
  | find me op newBits content =>
    simp only [step] at took
    split at took
    next idle =>
      cases took
      exact ⟨me, _, rfl, .inl ⟨_, _, _, idle, rfl⟩⟩
    · cases took
  | trim me i content =>
    simp only [step] at took
    split at took
    next idle =>
      cases took
      exact ⟨me, _, rfl, .inr (.inl ⟨_, _, idle, rfl⟩)⟩
    · cases took
  | checkSync me party =>
    simp only [step] at took
    split at took
    next idle =>
      split at took
      · cases took
      next different =>
        cases took
        exact ⟨me, _, rfl, .inr (.inr (.inl ⟨_, idle, different, rfl⟩))⟩
    · cases took
  | restarted me party =>
    simp only [step] at took
    split at took
    next idle =>
      cases took
      exact ⟨me, _, rfl, .inr (.inr (.inr (.inl ⟨_, rfl, idle, rfl⟩)))⟩
    · cases took
  | beginPass me party =>
    simp only [step] at took
    split at took
    next idle =>
      split at took
      · cases took
      next different =>
        cases took
        exact ⟨me, _, rfl, .inr (.inr (.inr (.inr (.inl ⟨_, idle, different, rfl⟩))))⟩
    · cases took
  | examine me opens stopSoon kept =>
    simp only [step] at took
    split at took
    next pass walking =>
      split at took
      · cases took
      next name names turn =>
        cases took
        exact ⟨me, _, rfl, .inr (.inr (.inr (.inr (.inr (.inl
          ⟨_, _, _, _, _, _, rfl, walking, turn, rfl⟩)))))⟩
    · cases took
  | finishPass me =>
    simp only [step] at took
    split at took
    next pass walking =>
      split at took
      next turn =>
        cases took
        exact ⟨me, _, rfl, .inr (.inr (.inr (.inr (.inr (.inr ⟨_, walking, turn, rfl⟩)))))⟩
      · cases took
    · cases took

theorem names_checkSync (f : Fuzzer) (party : SyncId) (g : Fuzzer) :
    (f.checkSync party g).names = f.names ∧ (f.checkSync party g).pass = f.pass ∧
      (f.checkSync party g).looks = f.looks ∧ (f.checkSync party g).synced = f.synced := by
  unfold Fuzzer.checkSync
  dsimp only
  split
  · exact ⟨rfl, rfl, rfl, rfl⟩
  · exact ⟨rfl, rfl, rfl, rfl⟩

theorem names_beginPass (f : Fuzzer) (party : SyncId) (g : Fuzzer) :
    (f.beginPass party g).names = f.names ∧ (f.beginPass party g).looks = f.looks ∧
      (f.beginPass party g).synced = f.synced ∧ ((f.beginPass party g).pass = f.pass ∨
        ∃ names maxStartId, (f.beginPass party g).pass = some ⟨party, names, f.synced party, maxStartId⟩) := by
  unfold Fuzzer.beginPass
  dsimp only
  split
  · split
    · exact ⟨rfl, rfl, rfl, .inl rfl⟩
    · exact ⟨rfl, rfl, rfl, .inl rfl⟩
  · split
    · exact ⟨rfl, rfl, rfl, .inr ⟨_, _, rfl⟩⟩
    · exact ⟨rfl, rfl, rfl, .inr ⟨_, _, rfl⟩⟩

theorem names_examine (opts : Options) (me : SyncId) (f g : Fuzzer) (pass : Pass) (name : Name)
    (names : List Name) (opens stopSoon : Bool) (kept : Option (OpState × Nat)) :
    f.names <+: (f.examine opts me g pass name names opens stopSoon kept).names := by
  unfold Fuzzer.examine
  dsimp only
  split
  · exact List.prefix_refl _
  · split
    · split
      · split
        · exact List.prefix_refl _
        · split
          · exact List.prefix_refl _
          · simp only [Fuzzer.names, Fuzzer.save, List.map_append]
            exact List.prefix_append _ _
      · exact List.prefix_refl _
    · exact List.prefix_refl _

/-- No file leaves a queue. -/
theorem step_grows {act : Act} (took : step opts s act = some s') (q : SyncId) :
    (s q).names <+: (s' q).names := by
  obtain ⟨me, f, rfl, changed⟩ := step_cases took
  by_cases here : q = me
  · subst here
    rw [Function.update_self]
    rcases changed with ⟨_, _, _, _, rfl⟩ | ⟨_, _, _, rfl⟩ | ⟨_, _, _, rfl⟩ | ⟨_, _, _, rfl⟩ | ⟨_, _, _, rfl⟩ |
      ⟨_, _, _, _, _, _, _, _, _, rfl⟩ | ⟨_, _, _, rfl⟩
    · rw [Fuzzer.names_save]
      exact List.prefix_append _ _
    · rw [Fuzzer.names_trim]
    · rw [(names_checkSync _ _ _).1]
    · exact List.prefix_refl _
    · rw [(names_beginPass _ _ _).1]
    · exact names_examine _ _ _ _ _ _ _ _ _ _
    · exact List.prefix_refl _
  · rw [Function.update_of_ne here]

/-- Every fuzzer among the queues of the fleet. -/
def Inv (s : Fleet) : Prop := ∀ p, (s p).Inv (fun q => (s q).names) p

theorem Inv.numbered (inv : Inv s) (p : SyncId) : Numbered (s p).names :=
  fun i name at_ => ((inv p).told i name at_).numbered

theorem step_inv (inv : Inv s) (room : ∀ q, (s q).names.length < 10 ^ 6) {act : Act}
    (took : step opts s act = some s') : Inv s' := by
  have grown := step_grows took
  obtain ⟨me, f, rfl, changed⟩ := step_cases took
  have held : f.Inv (fun q => (s q).names) me := by
    rcases changed with ⟨_, _, _, _, rfl⟩ | ⟨_, _, _, rfl⟩ | ⟨party, idle, _, rfl⟩ | ⟨_, _, _, rfl⟩ |
      ⟨party, _, different, rfl⟩ | ⟨_, _, _, _, _, _, _, walking, turn, rfl⟩ | ⟨_, walking, _, rfl⟩
    · exact (inv me).find _ _ _ _
    · exact (inv me).trim _ _
    · exact (inv me).checkSync idle (inv.numbered party) rfl
    · exact (inv me).resetCounter _
    · exact (inv me).beginPass different (inv.numbered party) (room party) rfl
    · exact (inv me).examine walking turn (room _) _ _ _ _ _
    · exact (inv me).finishPass walking
  intro p
  by_cases here : p = me
  · subst here
    rw [Function.update_self]
    exact held.mono grown
  · rw [Function.update_of_ne here]
    exact (inv p).mono grown

theorem started_inv (start : Started s) : Inv s := by
  intro p
  obtain ⟨seeds, nothing, pass, looks⟩ := start p
  refine ⟨?_, ?_, ?_, ?_, ?_, ?_, ?_, ?_, ?_, ?_⟩
  · intro i name at_
    unfold Fuzzer.names at at_
    rw [List.getElem?_map, Option.map_eq_some_iff] at at_
    obtain ⟨file, there, rfl⟩ := at_
    exact .inl (seeds i file there)
  · intro q
    rw [(nothing q).1]
    exact Nat.zero_le _
  · intro q
    rw [(nothing q).2.2]
    exact Nat.zero_le _
  · intro q maxStartId written
    rw [(nothing q).2.1] at written
    cases written
  · intro q k below
    rw [(nothing q).1] at below
    omega
  · simp [looks]
  · simp [pass]
  · simp [pass]
  · simp [pass]
  · simp [pass]

/-- Queues only grow, so a bound at the end of a run held all along. -/
theorem room_before {act : Act} (took : step opts s act = some s') {bound : Nat}
    (room : ∀ q, (s' q).names.length < bound) (q : SyncId) : (s q).names.length < bound :=
  Nat.lt_of_le_of_lt (step_grows took q).length_le (room q)

/-- The invariant of every run in which no queue needs a number of seven digits. -/
theorem reachable_inv (run : Reachable opts acts s) (room : ∀ q, (s q).names.length < 10 ^ 6) : Inv s := by
  refine run.history (P := fun _ s => (∀ q, (s q).names.length < 10 ^ 6) → Inv s) ?_ ?_ room
  · exact fun s start _ => started_inv start
  · intro _ s _ s' before took room
    exact step_inv (before (room_before took room)) (room_before took room) took

/-! ## Reading in order -/

/-- How many files of a queue were looked at since the counter was last written. -/
def Fuzzer.reached (f : Fuzzer) (q : SyncId) : Nat :=
  match f.pass with
  | some pass => if pass.party = q then pass.nextMinAccept else f.synced q
  | none => f.synced q

/-- The looks at a queue, the latest first. -/
def Fuzzer.looksAt (f : Fuzzer) (q : SyncId) : List Look := f.looks.filter fun look => look.party = q

/-- The numbers of the files that were looked at are those up to where the fuzzer is. -/
def Fuzzer.Straight (f : Fuzzer) : Prop :=
  ∀ q, (f.looksAt q).map (·.syncingCase) = (List.range (f.reached q)).reverse

/-- A look that does not end the pass. -/
theorem examine_onwards (opts : Options) (me : SyncId) (f g : Fuzzer) (pass : Pass) (name : Name)
    (names : List Name) (opens : Bool) (kept : Option (OpState × Nat)) :
    ∃ outcome, (f.examine opts me g pass name names opens false kept).looks =
        ⟨pass.party, pass.nextMinAccept, name, outcome⟩ :: f.looks ∧
      (f.examine opts me g pass name names opens false kept).pass =
        some { pass with names, nextMinAccept := (pass.nextMinAccept + 1) % 2 ^ 32 } ∧
      (f.examine opts me g pass name names opens false kept).synced = f.synced := by
  unfold Fuzzer.examine
  dsimp only
  split
  · exact ⟨_, rfl, rfl, rfl⟩
  · split
    · split
      · rw [if_neg (by decide)]
        split
        · exact ⟨_, rfl, rfl, rfl⟩
        · exact ⟨_, rfl, rfl, rfl⟩
      · exact ⟨_, rfl, rfl, rfl⟩
    · exact ⟨_, rfl, rfl, rfl⟩

theorem Fuzzer.Straight.examine {f : Fuzzer} (straight : f.Straight) {pass : Pass}
    (walking : f.pass = some pass) (bound : pass.nextMinAccept + 1 < 2 ^ 32) (opts : Options) (me : SyncId)
    (g : Fuzzer) (name : Name) (names : List Name) (opens : Bool) (kept : Option (OpState × Nat)) :
    (f.examine opts me g pass name names opens false kept).Straight := by
  obtain ⟨outcome, looks, onwards, synced⟩ := examine_onwards opts me f g pass name names opens kept
  rw [Nat.mod_eq_of_lt bound] at onwards
  intro q
  have before := straight q
  unfold Fuzzer.looksAt Fuzzer.reached at before ⊢
  rw [walking] at before
  rw [looks, onwards, synced]
  dsimp only at before ⊢
  by_cases here : pass.party = q
  · rw [if_pos here] at before ⊢
    rw [List.filter_cons_of_pos (by simpa using here), List.map_cons, before, List.range_succ,
      List.reverse_append]
    rfl
  · rw [if_neg here] at before ⊢
    rw [List.filter_cons_of_neg (by simpa using here)]
    exact before

def first : SyncId := ⟨['a'], rfl⟩

def second : SyncId := ⟨['b'], rfl⟩

/-- A name that a fuzzer takes for its own was given when its case was imported. -/
theorem Fuzzer.Told.imported {f : Fuzzer} {i : Nat} {name : Name} (told : f.Told i name) (fits : i < 10 ^ 6)
    {q : SyncId} (known : isKnownCase q.name name = true) :
    ∃ look ∈ f.looks, look.party = q ∧ (∃ content, look.outcome = .tried content) ∧
      ∃ op newBits fileExtension, name = queueName i op (some (q.name, look.syncingCase)) newBits fileExtension := by
  rcases told with ⟨_, _, rfl⟩ | ⟨_, _, _, rfl⟩ | ⟨look, member, tried, op, newBits, fileExtension, rfl⟩
  · rw [isKnownCase_pivot fits] at known
    cases known
  · rw [isKnownCase_own fits] at known
    cases known
  · rw [isKnownCase_synced fits] at known
    subst known
    exact ⟨look, member, rfl, tried, op, newBits, fileExtension, rfl⟩

end Swam.Afl.Syncing
