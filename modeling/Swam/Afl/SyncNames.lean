import Swam.Lib.Padded

/-!
# The names of queue files

A file in the queue of a fuzzer is named by its number and by where the test case came from. The
other fuzzers find their way through the queue by these names, and tell by them what they gave away
themselves.
-/
namespace Swam.Afl.Syncing

open Lib

abbrev Name := List Char

/-- `SYNC_ID_MAX_LEN` -/
def syncIdMaxLen : Nat := 50

/-- What `fix_up_sync` lets pass. -/
def fixUpSync (syncId : Name) : Bool :=
  (syncId.all fun x => x.isAlphanum || x == '_' || x == '-') && decide (syncId.length ≤ syncIdMaxLen)

/-- The name of a fuzzer, as given by `-M` or `-S`. -/
structure SyncId where
  name : Name
  accepted : fixUpSync name = true
deriving DecidableEq

/-! ## What a name says -/

inductive StageVal where
  | none
  | le
  | be
deriving DecidableEq

/-- What `describe_op` reads of `afl_state_t`. -/
structure OpState where
  currentEntry : Nat
  splicingWith : Option Nat
  time : Nat
  totalExecs : Nat
  stageShort : Name
  stageCurByte : Option Nat
  stageValType : StageVal
  stageCurVal : Int
  sanCrashOnly : Bool
  nonCovIncr : Bool

def decimal (n : Nat) : Name := Nat.toDigits 10 n

/-- `%d` -/
def signed (i : Int) : Name := if i < 0 then '-' :: decimal i.natAbs else decimal i.natAbs

/-- `%+d` -/
def withSign (i : Int) : Name := if i < 0 then signed i else '+' :: signed i

/-- The part of the name about the mutation. -/
def OpState.operation (op : OpState) : Name :=
  match op.stageCurByte with
  | some pos => ",pos:".toList ++ decimal pos ++
      (match op.stageValType with
      | .none => []
      | .le => ",val:".toList ++ withSign op.stageCurVal
      | .be => ",val:be:".toList ++ withSign op.stageCurVal)
  | none => ",rep:".toList ++ signed op.stageCurVal

def OpState.spliced (op : OpState) : Name :=
  match op.splicingWith with
  | some other => '+' :: padded 6 other
  | none => []

/-- What the name ends with. -/
def OpState.flags (op : OpState) (newBits : Nat) : Name :=
  let isTimeout := newBits &&& 0xf0 ≠ 0
  let newBits := if isTimeout then newBits - 0x80 else newBits
  (if isTimeout then ",+tout".toList else []) ++ (if newBits = 2 then ",+cov".toList else []) ++
    (if op.sanCrashOnly then ",+san".toList else []) ++ (if op.nonCovIncr then ",+noncov".toList else [])

/-- `describe_op`; `syncing` is the party and the case of a synchronisation. -/
def describeOp (op : OpState) (syncing : Option (Name × Nat)) (newBits : Nat) : Name :=
  match syncing with
  | some (party, case) =>
    "sync:".toList ++ (party ++ (",src:".toList ++ (padded 6 case ++ op.flags newBits)))
  | none =>
    -- Without a party there is never a `sync` in front, which is how the cases are told apart.
    "src:".toList ++ (padded 6 op.currentEntry ++ op.spliced ++ ",time:".toList ++ decimal op.time ++
      ",execs:".toList ++ decimal op.totalExecs ++ ",op:".toList ++ op.stageShort ++ op.operation ++
      op.flags newBits)

/-- The number of a file in its queue, and the rest of its name. -/
def caseName (id : Nat) (description : Name) : Name := "id:".toList ++ padded 6 id ++ ',' :: description

/-- `%s%s` for the option `-e`. -/
def extension : Option Name → Name
  | none => []
  | some fileExtension => '.' :: fileExtension

/-- The name that `save_if_interesting` gives. -/
def queueName (queuedItems : Nat) (op : OpState) (syncing : Option (Name × Nat)) (newBits : Nat)
    (fileExtension : Option Name) : Name :=
  caseName queuedItems (describeOp op syncing newBits ++ extension fileExtension)

/-- The name that `pivot_inputs` gives to a seed. -/
def pivotName (id totalExecs : Nat) (useName : Name) : Name :=
  caseName id ("time:0,execs:".toList ++ decimal totalExecs ++ ",orig:".toList ++ useName)

/-! ## Known cases -/

def isKnownCase (syncId name : Name) : Bool :=
  let comingFromMe := syncId ++ [',']
  if name.length < 25 + comingFromMe.length then false
  else if (name.drop 10).take 4 ≠ "sync".toList then false
  else if (name.drop 15).take comingFromMe.length ≠ comingFromMe then false
  else true

/-- The first nine characters of a name hold its number. -/
def tag (id : Nat) : Name := "id:".toList ++ padded 6 id

theorem length_tag {id : Nat} (fits : id < 10 ^ 6) : (tag id).length = 9 := by
  unfold tag
  rw [List.length_append, length_padded (by decide) fits]
  rfl

theorem caseName_eq (id : Nat) (description : Name) : caseName id description = tag id ++ ',' :: description :=
  rfl

theorem take_caseName {id : Nat} (fits : id < 10 ^ 6) (description : Name) :
    (caseName id description).take 9 = tag id := by
  rw [caseName_eq, List.take_append_of_le_length (by rw [length_tag fits]),
    List.take_of_length_le (by rw [length_tag fits])]

theorem drop_caseName {id : Nat} (fits : id < 10 ^ 6) (description : Name) :
    (caseName id description).drop 10 = description := by
  rw [caseName_eq, List.drop_append, length_tag fits, List.drop_eq_nil_of_le (by rw [length_tag fits]; decide)]
  rfl

theorem length_caseName {id : Nat} (fits : id < 10 ^ 6) (description : Name) :
    (caseName id description).length = 10 + description.length := by
  rw [caseName_eq, List.length_append, length_tag fits, List.length_cons]
  omega

theorem tag_lt {m n : Nat} (less : m < n) (fits : n < 10 ^ 6) : tag m < tag n :=
  List.append_left_lt (padded_lt (by decide) less fits)

theorem tag_inj {m n : Nat} (first : m < 10 ^ 6) (second : n < 10 ^ 6) : tag m = tag n ↔ m = n := by
  unfold tag
  rw [List.append_cancel_left_eq, padded_inj (by decide) first second]

/-- Names are in the order of the numbers, whatever follows. -/
theorem caseName_lt {m n : Nat} (less : m < n) (fits : n < 10 ^ 6) (d e : Name) :
    caseName m d < caseName n e := by
  rw [caseName_eq, caseName_eq]
  refine append_lt_append (tag_lt less fits) ?_ _ _
  rw [length_tag fits, length_tag (Nat.lt_trans less fits)]

/-- The text before the first comma. -/
theorem take_comma {a b : Name} (rest : Name) (first : ',' ∉ a) (second : ',' ∉ b) :
    (b ++ ',' :: rest).take (a.length + 1) = a ++ [','] ↔ a = b := by
  -- Neither side has a comma of its own, so the first comma is where both end.
  induction a generalizing b with
  | nil =>
    cases b with
    | nil => simp
    | cons c b =>
      have other : c ≠ ',' := by
        rintro rfl
        exact second List.mem_cons_self
      simp [other]
  | cons c a ih =>
    have here : ',' ≠ c := by
      rintro rfl
      exact first List.mem_cons_self
    cases b with
    | nil => simp [here]
    | cons d b =>
      have later := ih (fun member => first (List.mem_cons_of_mem _ member))
        fun member => second (List.mem_cons_of_mem _ member)
      simp only [List.cons_append, List.length_cons, List.take_succ_cons, List.cons.injEq, later]
      exact and_congr_left fun _ => eq_comm

theorem SyncId.no_comma (p : SyncId) : ',' ∉ p.name := by
  intro member
  have accepted := p.accepted
  unfold fixUpSync at accepted
  rw [Bool.and_eq_true, List.all_eq_true] at accepted
  have := accepted.1 _ member
  contradiction

theorem SyncId.ext_iff {p q : SyncId} : p = q ↔ p.name = q.name := by
  constructor
  · intro same
    rw [same]
  · intro same
    cases p
    cases q
    cases same
    rfl

/-- The three tests look at the description alone. -/
theorem isKnownCase_caseName {id : Nat} (fits : id < 10 ^ 6) (me description : Name) :
    isKnownCase me (caseName id description) = true ↔
      me.length + 16 ≤ description.length ∧ description.take 4 = "sync".toList ∧
        (description.drop 5).take (me.length + 1) = me ++ [','] := by
  have fifteen : (caseName id description).drop 15 = description.drop 5 := by
    rw [← drop_caseName fits description, List.drop_drop, drop_caseName fits]
  unfold isKnownCase
  simp only [drop_caseName fits, fifteen, length_caseName fits, List.length_append, List.length_singleton]
  by_cases long : 10 + description.length < 25 + (me.length + 1)
  · rw [if_pos long]
    exact iff_of_false (by simp) fun known => by omega
  · rw [if_neg long]
    by_cases kind : description.take 4 = "sync".toList
    · rw [if_neg (by simpa using kind)]
      by_cases mine : (description.drop 5).take (me.length + 1) = me ++ [',']
      · rw [if_neg (by simpa using mine)]
        exact iff_of_true rfl ⟨by omega, kind, mine⟩
      · rw [if_pos mine]
        exact iff_of_false (by simp) fun known => mine known.2.2
    · rw [if_pos kind]
      exact iff_of_false (by simp) fun known => kind known.2.1

/-- A synchronised case is known by the fuzzer it came from and by no other one. -/
theorem isKnownCase_synced {id : Nat} (fits : id < 10 ^ 6) (me party : SyncId) (op : OpState)
    (case newBits : Nat) (fileExtension : Option Name) :
    isKnownCase me.name (queueName id op (some (party.name, case)) newBits fileExtension) = true ↔
      me = party := by
  have long := le_length_padded 6 case
  have text : describeOp op (some (party.name, case)) newBits ++ extension fileExtension =
      "sync:".toList ++ (party.name ++ ',' :: ("src:".toList ++ (padded 6 case ++
        (op.flags newBits ++ extension fileExtension)))) := by
    simp [describeOp]
  unfold queueName
  rw [text, isKnownCase_caseName fits, SyncId.ext_iff]
  have told := take_comma ("src:".toList ++ (padded 6 case ++ (op.flags newBits ++ extension fileExtension)))
    me.no_comma party.no_comma
  constructor
  · rintro ⟨_, _, mine⟩
    exact told.mp mine
  · intro same
    refine ⟨?_, rfl, told.mpr same⟩
    simp only [List.length_append, List.length_cons, same]
    simp
    omega

theorem isKnownCase_own {id : Nat} (fits : id < 10 ^ 6) (me : Name) (op : OpState) (newBits : Nat)
    (fileExtension : Option Name) : isKnownCase me (queueName id op none newBits fileExtension) = false := by
  refine Bool.eq_false_iff.mpr fun known => ?_
  obtain ⟨_, kind, _⟩ := (isKnownCase_caseName fits _ _).mp known
  simp [describeOp] at kind

theorem isKnownCase_pivot {id : Nat} (fits : id < 10 ^ 6) (me : Name) (totalExecs : Nat) (useName : Name) :
    isKnownCase me (pivotName id totalExecs useName) = false := by
  refine Bool.eq_false_iff.mpr fun known => ?_
  obtain ⟨_, kind, _⟩ := (isKnownCase_caseName fits _ _).mp known
  simp at kind

end Swam.Afl.Syncing
