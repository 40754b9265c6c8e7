import Mathlib.Logic.Function.Basic
import Swam.Afl.SyncNames
import Swam.Afl.Testcases

/-!
# Synchronisation between fuzzers

The fuzzers of a campaign share a directory, and each reads the queues of the others. Of every other
queue it keeps in a file how far it has come. In one pass it looks at all files that were there when
the pass began, runs those it does not know, and saves what is new to it under a name that tells
where it came from. Meanwhile the other fuzzers go on.
-/
namespace Swam.Afl.Syncing

open Lib

abbrev Content := List (BitVec 8)

structure QueueFile where
  name : Name
  content : Content

/-- The loop of `sync_fuzzers` over the queue of one party: the names that are left, the number of the
next one, and the number of files that were there at the start of the fuzzer, less one. -/
structure Pass where
  party : SyncId
  names : List Name
  nextMinAccept : Nat
  maxStartId : Nat

inductive Outcome where
  | unopened
  | badSize
  | known
  | tried (content : Content)

/-- What became of one file of a queue. -/
structure Look where
  party : SyncId
  syncingCase : Nat
  name : Name
  outcome : Outcome

/-- A fuzzer: its queue, the files in `.synced`, the pass that it is in, and beside them what it
looked at, the latest first, and how many files it has counted in each queue. -/
structure Fuzzer where
  queue : List QueueFile
  synced : SyncId → Nat
  maxFileOf : SyncId → Option Nat
  pass : Option Pass
  looks : List Look
  present : SyncId → Nat

abbrev Fleet := SyncId → Fuzzer

/-- The options `-e` and `-G` of each fuzzer. -/
structure Options where
  fileExtension : SyncId → Option Name
  maxLength : SyncId → Nat

/-! ## One fuzzer -/

/-- `save_if_interesting` for an input that is kept. -/
def Fuzzer.save (f : Fuzzer) (fileExtension : Option Name) (op : OpState) (syncing : Option (Name × Nat))
    (newBits : Nat) (content : Content) : Fuzzer :=
  { f with queue := f.queue ++ [⟨queueName f.queue.length op syncing newBits fileExtension, content⟩] }

/-- The names in the directory of a queue. -/
def Fuzzer.dirNames (f : Fuzzer) : List Name :=
  [".".toList, "..".toList, ".state".toList] ++ f.queue.map (·.name)

/-- `check_sync_fuzzers` for one party, whose files are counted. -/
def Fuzzer.checkSync (f : Fuzzer) (party : SyncId) (other : Fuzzer) : Fuzzer :=
  let maxStartId := (other.dirNames.filter fun name => name.head? ≠ some '.').length
  let f := { f with present := Function.update f.present party maxStartId }
  -- An empty queue leaves the file as it is.
  if maxStartId = 0 then f
  else { f with maxFileOf := Function.update f.maxFileOf party (some (maxStartId - 1)) }

/-- The party looks newer than the last pass: the counter goes back. -/
def Fuzzer.resetCounter (f : Fuzzer) (party : SyncId) : Fuzzer :=
  { f with synced := Function.update f.synced party 0 }

/-- `sync_fuzzers` up to the loop over the files. -/
def Fuzzer.beginPass (f : Fuzzer) (party : SyncId) (other : Fuzzer) : Fuzzer :=
  let nextMinAccept := f.synced party
  let maxStartId := (f.maxFileOf party).getD 0
  -- What was there at the start has been read: the file is removed.
  let f := if maxStartId < nextMinAccept then
      { f with maxFileOf := Function.update f.maxFileOf party none } else f
  let names := (alphasort other.dirNames).dropWhile fun name => name.take 9 ≠ (tag nextMinAccept).take 9
  if names.isEmpty then f else { f with pass := some ⟨party, names, nextMinAccept, maxStartId⟩ }

/-- One round of the loop over the files. The file may not open, the run may be the last one before
the fuzzer stops, and the input may be kept. -/
def Fuzzer.examine (opts : Options) (me : SyncId) (f other : Fuzzer) (pass : Pass) (name : Name)
    (names : List Name) (opens stopSoon : Bool) (kept : Option (OpState × Nat)) : Fuzzer :=
  let nextMinAccept := (pass.nextMinAccept + 1) % 2 ^ 32
  let onwards := some { pass with names, nextMinAccept }
  let look := Look.mk pass.party pass.nextMinAccept name
  match if opens then other.queue.find? fun file => file.name == name else none with
  -- The other fuzzer may be resuming; the number is used up all the same.
  | none => { f with pass := onwards, looks := look .unopened :: f.looks }
  | some file =>
    if file.content.length ≠ 0 ∧ file.content.length ≤ maxFile then
      if nextMinAccept < pass.maxStartId ∨ isKnownCase me.name name = false then
        let f := { f with looks := look (.tried file.content) :: f.looks }
        -- The counter is not written, so the next pass looks at these files again.
        if stopSoon then { f with pass := none }
        else
          match kept with
          | none => { f with pass := onwards }
          | some (op, newBits) =>
            { f.save (opts.fileExtension me) op (some (pass.party.name, pass.nextMinAccept)) newBits
                (file.content.take (opts.maxLength me)) with pass := onwards }
      else { f with pass := onwards, looks := look .known :: f.looks }
    else { f with pass := onwards, looks := look .badSize :: f.looks }

/-- The end of the pass, where the counter is written. -/
def Fuzzer.finishPass (f : Fuzzer) (pass : Pass) : Fuzzer :=
  { f with synced := Function.update f.synced pass.party pass.nextMinAccept, pass := none }

/-! ## The fleet -/

inductive Act where
  /-- An own input is kept. -/
  | find (me : SyncId) (op : OpState) (newBits : Nat) (content : Content)
  /-- `trim_case` writes a shorter input into a file of the queue. -/
  | trim (me : SyncId) (i : Nat) (content : Content)
  | checkSync (me party : SyncId)
  | restarted (me party : SyncId)
  | beginPass (me party : SyncId)
  | examine (me : SyncId) (opens stopSoon : Bool) (kept : Option (OpState × Nat))
  | finishPass (me : SyncId)

def step (opts : Options) (s : Fleet) : Act → Option Fleet
  | .find me op newBits content =>
    match (s me).pass with
    | none => some (Function.update s me ((s me).save (opts.fileExtension me) op none newBits content))
    | some _ => none
  | .trim me i content =>
    match (s me).pass with
    | none => some (Function.update s me
        { s me with queue := (s me).queue.modify i fun file => { file with content } })
    | some _ => none
  | .checkSync me party =>
    match (s me).pass with
    | none => if party = me then none
        else some (Function.update s me ((s me).checkSync party (s party)))
    | some _ => none
  | .restarted me party =>
    match (s me).pass with
    | none => some (Function.update s me ((s me).resetCounter party))
    | some _ => none
  | .beginPass me party =>
    match (s me).pass with
    | none => if party = me then none
        else some (Function.update s me ((s me).beginPass party (s party)))
    | some _ => none
  | .examine me opens stopSoon kept =>
    match (s me).pass with
    | some pass =>
      match pass.names with
      | [] => none
      | name :: names => some (Function.update s me
          ((s me).examine opts me (s pass.party) pass name names opens stopSoon kept))
    | none => none
  | .finishPass me =>
    match (s me).pass with
    | some pass =>
      match pass.names with
      | [] => some (Function.update s me ((s me).finishPass pass))
      | _ :: _ => none
    | none => none

/-- Seeds in the queue, under the new names that `pivot_inputs` gives to files that are not named like
queue files, and nothing read yet. -/
def Fuzzer.Fresh (f : Fuzzer) : Prop :=
  (∀ i file, f.queue[i]? = some file → ∃ execs useName, file.name = pivotName i execs useName) ∧
    (∀ party, f.synced party = 0 ∧ f.maxFileOf party = none ∧ f.present party = 0) ∧ f.pass = none ∧
    f.looks = []

def Started (s : Fleet) : Prop := ∀ p, (s p).Fresh

end Swam.Afl.Syncing
