import Mathlib.Data.List.Basic

namespace InterBase.Singular

/-- A record block; without a format it is a record of nulls. The null flags lie in front of the
data. -/
structure Rec where
  recFormat : Option Nat
  recNumber : Int
  recData : List UInt8
deriving Repr, DecidableEq

/-- The copy that is made of a record parameter block. -/
structure Srpb where
  rpbNumber : Int
  rpbTransaction : Int
  rpbFormatNumber : Nat
  record : Rec
deriving Repr, DecidableEq

/-- A record parameter block. A copy is made only where there is a record, and no record block is
taken away. -/
@[ext] structure Rpb where
  rpbNumber : Int
  rpbTransaction : Int
  rpbFormatNumber : Nat
  rpbRecord : Option Rec
  rpbCopy : Option Srpb
  copied : rpbCopy.isSome = true → rpbRecord.isSome = true

structure Request where
  reqCount : Nat
  reqRpb : Nat → Rpb

/-- An item of a sort map: its stream, and whether it is an expression that is not a field. -/
structure SmbItem where
  smbStream : Nat
  expression : Bool
deriving Repr, DecidableEq

inductive ScanType where
  | indexed
  | sequential
  | procedure
  | extSequential
  | extIndexed
  | extDbkey
  | navigate
deriving Repr, DecidableEq

/-- The state of an aggregate that has returned a record: values of the next group are pending, or
the end of its input has been met. -/
inductive GroupState where
  | pending
  | endOfFile
deriving Repr, DecidableEq

/-- Where `fetch_left` stands: it reads the outer source, of a left join or of a full one, or it
looks for inner records that have not been joined, of an inner source that was opened or was not. -/
inductive LeftPhase where
  | left
  | full
  | unjoined
  | neverOpened
deriving Repr, DecidableEq

/-- Record source blocks, with what their impure areas say when a row has been returned: the present
arm of a union, the state of an aggregate, the rows that a first still lets pass, the phase of an
outer join. `evaluates` are the streams of the sub-selects in the expressions of a node, `project`
is `rsb_project`. -/
inductive Rsb where
  | scan (rsbType : ScanType) (evaluates : List Nat) (rsbStream : Nat)
  | union (evaluates : List Nat) (rsbStream irsbCount : Nat) (arms : List Rsb)
  | aggregate (evaluates : List Nat) (rsbStream : Nat) (state : GroupState) (rsbNext : Rsb)
  | sort (evaluates : List Nat) (map : List SmbItem) (rsbNext : Rsb)
  | merge (sorts : List Rsb)
  | first (evaluates : List Nat) (irsbCount : Int) (rsbNext : Rsb)
  | skip (evaluates : List Nat) (rsbNext : Rsb)
  | boolean (evaluates : List Nat) (rsbNext : Rsb)
  | cross (project : Bool) (args : List Rsb)
  | leftCross (evaluates : List Nat) (phase : LeftPhase) (outer inner : Rsb)

/-- `rsb_arg [0]` of a sort. -/
def Rsb.sortMap : Rsb → List SmbItem
  | sort _ map _ => map
  | _ => []

/-- Save current record. -/
def saveRecord (rpb : Rpb) : Rpb :=
  match h : rpb.rpbRecord with
  | some record =>
    { rpb with
      rpbCopy := some ⟨rpb.rpbNumber, rpb.rpbTransaction, rpb.rpbFormatNumber, record⟩
      copied := fun _ => by rw [h]; rfl }
  | none => rpb

/-- Restore record to prior state; fails with bugcheck 284. -/
def restoreRecord (rpb : Rpb) : Option Rpb :=
  match rpb.rpbCopy with
  | none => some rpb
  | some copy =>
    match rpb.rpbRecord with
    | none => none
    | some record =>
      let size := copy.record.recData.length
      if record.recData.length < size then none
      else
        some
          { rpbNumber := copy.rpbNumber
            rpbTransaction := copy.rpbTransaction
            rpbFormatNumber := copy.rpbFormatNumber
            rpbRecord := some ⟨copy.record.recFormat, copy.record.recNumber,
              copy.record.recData ++ record.recData.drop size⟩
            rpbCopy := none
            copied := fun h => absurd h (by simp) }

def Request.set (request : Request) (stream : Nat) (rpb : Rpb) : Request :=
  { request with reqRpb := fun s => if s = stream then rpb else request.reqRpb s }

def Request.save (request : Request) (stream : Nat) : Request :=
  request.set stream (saveRecord (request.reqRpb stream))

def Request.restore (request : Request) (stream : Nat) : Option Request :=
  (restoreRecord (request.reqRpb stream)).map (request.set stream)

/-- The streams that are marked in the array `streams[128]`, in order. -/
def marked (reqCount : Nat) (items : List Nat) : Option (List Nat) :=
  if reqCount ≤ 128 then some ((List.range reqCount).filter (· ∈ items)) else none

/-- `item += 2`. -/
def everyOther {α : Type} : List α → List α
  | [] => []
  | [x] => [x]
  | x :: _ :: xs => x :: everyOther xs

def Rsb.items (rsb : Rsb) : List Nat := rsb.sortMap.map SmbItem.smbStream

/-- The streams of the items that `map_sort_data` moves back. -/
def mapped (map : List SmbItem) : List Nat :=
  (map.filter fun item => !item.expression).map SmbItem.smbStream

mutual

/-- Save data state for current rsb. -/
def pushRpbs : Rsb → Request → Option Request
  | .scan _ _ stream, request => some (request.save stream)
  | .union _ stream _ _, request => some (request.save stream)
  | .aggregate _ stream _ _, request => some (request.save stream)
  | .sort _ map _, request =>
    (marked request.reqCount (map.map SmbItem.smbStream)).map fun streams =>
      streams.foldl Request.save request
  | .merge sorts, request =>
    (marked request.reqCount (sorts.flatMap Rsb.items)).map fun streams =>
      streams.foldl Request.save request
  | .first _ _ next, request => pushRpbs next request
  | .skip _ next, request => pushRpbs next request
  | .boolean _ next, request => pushRpbs next request
  | .cross _ args, request => pushAll args request
  | .leftCross _ _ outer inner, request => (pushRpbs outer request).bind (pushRpbs inner)

def pushAll : List Rsb → Request → Option Request
  | [], request => some request
  | rsb :: args, request => (pushRpbs rsb request).bind (pushAll args)

end

mutual

/-- Restore record state to saved copy. -/
def popRpbs : Rsb → Request → Option Request
  | .scan _ _ stream, request => request.restore stream
  | .union _ stream _ _, request => request.restore stream
  | .aggregate _ stream _ _, request => request.restore stream
  | .sort _ map _, request =>
    (marked request.reqCount (map.map SmbItem.smbStream)).bind fun streams =>
      streams.foldlM Request.restore request
  | .merge sorts, request =>
    (marked request.reqCount (sorts.flatMap fun sort => everyOther sort.items)).bind fun streams =>
      streams.foldlM Request.restore request
  | .first _ _ next, request => popRpbs next request
  | .skip _ next, request => popRpbs next request
  | .boolean _ next, request => popRpbs next request
  | .cross _ args, request => popAll args request
  | .leftCross _ _ outer inner, request => (popRpbs outer request).bind (popRpbs inner)

def popAll : List Rsb → Request → Option Request
  | [], request => some request
  | rsb :: args, request => (popRpbs rsb request).bind (popAll args)

end

mutual

/-- The streams of a tree whose copies are made. -/
def pushed (reqCount : Nat) : Rsb → List Nat
  | .scan _ _ stream => [stream]
  | .union _ stream _ _ => [stream]
  | .aggregate _ stream _ _ => [stream]
  | .sort _ map _ => (List.range reqCount).filter (· ∈ map.map SmbItem.smbStream)
  | .merge sorts => (List.range reqCount).filter (· ∈ sorts.flatMap Rsb.items)
  | .first _ _ next => pushed reqCount next
  | .skip _ next => pushed reqCount next
  | .boolean _ next => pushed reqCount next
  | .cross _ args => pushedAll reqCount args
  | .leftCross _ _ outer inner => pushed reqCount outer ++ pushed reqCount inner

def pushedAll (reqCount : Nat) : List Rsb → List Nat
  | [] => []
  | rsb :: args => pushed reqCount rsb ++ pushedAll reqCount args

end

mutual

/-- The streams of a tree that are restored: of a sort below a merge, those of every other item. -/
def popped (reqCount : Nat) : Rsb → List Nat
  | .scan _ _ stream => [stream]
  | .union _ stream _ _ => [stream]
  | .aggregate _ stream _ _ => [stream]
  | .sort _ map _ => (List.range reqCount).filter (· ∈ map.map SmbItem.smbStream)
  | .merge sorts =>
    (List.range reqCount).filter (· ∈ sorts.flatMap fun sort => everyOther sort.items)
  | .first _ _ next => popped reqCount next
  | .skip _ next => popped reqCount next
  | .boolean _ next => popped reqCount next
  | .cross _ args => poppedAll reqCount args
  | .leftCross _ _ outer inner => popped reqCount outer ++ popped reqCount inner

def poppedAll (reqCount : Nat) : List Rsb → List Nat
  | [] => []
  | rsb :: args => popped reqCount rsb ++ poppedAll reqCount args

end

mutual

/-- Whether the walks come to a sort or a merge. -/
def marksStreams : Rsb → Bool
  | .scan _ _ _ => false
  | .union _ _ _ _ => false
  | .aggregate _ _ _ _ => false
  | .sort _ _ _ => true
  | .merge _ => true
  | .first _ _ next => marksStreams next
  | .skip _ next => marksStreams next
  | .boolean _ next => marksStreams next
  | .cross _ args => marksStreamsAny args
  | .leftCross _ _ outer inner => marksStreams outer || marksStreams inner

def marksStreamsAny : List Rsb → Bool
  | [] => false
  | rsb :: args => marksStreams rsb || marksStreamsAny args

end

mutual

/-- The streams that are read into when the source is opened and fetched from. -/
def opened : Rsb → List Nat
  | .scan _ evaluates stream => evaluates ++ [stream]
  | .union evaluates stream _ arms => evaluates ++ stream :: openedAll arms
  | .aggregate evaluates stream _ next => evaluates ++ stream :: opened next
  | .sort evaluates map next => evaluates ++ mapped map ++ opened next
  | .merge sorts => openedAll sorts
  | .first evaluates _ next => evaluates ++ opened next
  | .skip evaluates next => evaluates ++ opened next
  | .boolean evaluates next => evaluates ++ opened next
  | .cross _ args => openedAll args
  | .leftCross evaluates _ outer inner => evaluates ++ opened outer ++ opened inner

def openedAll : List Rsb → List Nat
  | [] => []
  | rsb :: args => opened rsb ++ openedAll args

end

mutual

/-- The streams that one more fetch reads into. A sort has read its input when it was opened; the
sources to the right in a cross, the arms behind the present one of a union and the inner source of
a left join are opened by the fetch. -/
def touched : Rsb → List Nat
  | .scan _ _ stream => [stream]
  | .union evaluates stream irsbCount arms => evaluates ++ stream :: touchedFrom irsbCount arms
  | .aggregate evaluates stream state next =>
    if state = .endOfFile then [] else evaluates ++ stream :: touched next
  | .sort _ map _ => mapped map
  | .merge sorts => touchedAll sorts
  | .first _ irsbCount next => if irsbCount ≤ 0 then [] else touched next
  | .skip _ next => touched next
  | .boolean evaluates next => evaluates ++ touched next
  | .cross false args => touchedFrom 0 args
  | .cross true args => touchedFirst args
  | .leftCross evaluates .left outer inner => evaluates ++ touched outer ++ opened inner
  | .leftCross evaluates .full outer inner => evaluates ++ opened outer ++ opened inner
  | .leftCross evaluates .unjoined outer inner => evaluates ++ opened outer ++ touched inner
  | .leftCross _ .neverOpened _ (.boolean _ next) => touched next
  | .leftCross _ .neverOpened _ inner => touched inner

def touchedAll : List Rsb → List Nat
  | [] => []
  | rsb :: args => touched rsb ++ touchedAll args

/-- Of the source at this place and those behind it. -/
def touchedFrom : Nat → List Rsb → List Nat
  | _, [] => []
  | 0, rsb :: args => touched rsb ++ openedAll args
  | n + 1, _ :: args => touchedFrom n args

def touchedFirst : List Rsb → List Nat
  | [] => []
  | rsb :: _ => touched rsb

end

/-- An `ORDER BY` over a `GROUP BY`: the groups are not read again. -/
example : touched (.sort [] [⟨0, false⟩] (.aggregate [] 0 .pending (.scan .sequential [] 1))) =
    [0] := rfl

/-- A fetch changes the streams of the tree. It makes no copies of those that are visited, and
record blocks stay and do not get shorter. -/
structure Fetches (rsb : Rsb) (before after : Request) : Prop where
  count : after.reqCount = before.reqCount
  others : ∀ s ∉ touched rsb, after.reqRpb s = before.reqRpb s
  copies : ∀ s ∈ pushed before.reqCount rsb,
    (after.reqRpb s).rpbCopy = (before.reqRpb s).rpbCopy
  records : ∀ s r, (before.reqRpb s).rpbRecord = some r →
    ∃ r', (after.reqRpb s).rpbRecord = some r' ∧ r.recData.length ≤ r'.recData.length

/-- The record number, the transaction, the format and the contents are the same. -/
structure SameRecord (rpb rpb' : Rpb) : Prop where
  number : rpb'.rpbNumber = rpb.rpbNumber
  transaction : rpb'.rpbTransaction = rpb.rpbTransaction
  formatNumber : rpb'.rpbFormatNumber = rpb.rpbFormatNumber
  missing : rpb.rpbRecord = none → rpb'.rpbRecord = none
  record : ∀ r, rpb.rpbRecord = some r → ∃ r', rpb'.rpbRecord = some r' ∧
    r'.recFormat = r.recFormat ∧ r'.recNumber = r.recNumber ∧
    r'.recData.take r.recData.length = r.recData

section

variable {rpb rpb' : Rpb} {request a b c : Request} {L L' : List Nat} {rsb : Rsb} {s t : Nat}

@[simp] theorem saveRecord_record (rpb : Rpb) : (saveRecord rpb).rpbRecord = rpb.rpbRecord := by
  unfold saveRecord
  split <;> rfl

@[simp] theorem saveRecord_number (rpb : Rpb) : (saveRecord rpb).rpbNumber = rpb.rpbNumber := by
  unfold saveRecord
  split <;> rfl

@[simp] theorem saveRecord_transaction (rpb : Rpb) :
    (saveRecord rpb).rpbTransaction = rpb.rpbTransaction := by
  unfold saveRecord
  split <;> rfl

@[simp] theorem saveRecord_formatNumber (rpb : Rpb) :
    (saveRecord rpb).rpbFormatNumber = rpb.rpbFormatNumber := by
  unfold saveRecord
  split <;> rfl

/-- The copy is that of the record, also where there is none. -/
theorem saveRecord_copy (rpb : Rpb) : (saveRecord rpb).rpbCopy = rpb.rpbRecord.map fun record =>
    ⟨rpb.rpbNumber, rpb.rpbTransaction, rpb.rpbFormatNumber, record⟩ := by
  unfold saveRecord
  split
  · rename_i record h
    dsimp only
    rw [h]
    rfl
  · rename_i h
    rw [h, Option.map_none]
    cases copy : rpb.rpbCopy with
    | none => rfl
    | some srpb =>
      have some := rpb.copied (by rw [copy]; rfl)
      rw [h] at some
      exact absurd some (by simp)

theorem saveRecord_saveRecord (rpb : Rpb) : saveRecord (saveRecord rpb) = saveRecord rpb := by
  refine Rpb.ext ?_ ?_ ?_ ?_ ?_ <;> simp [saveRecord_copy]

/-- What is saved of a request. -/
structure Saved (L : List Nat) (a b : Request) : Prop where
  count : b.reqCount = a.reqCount
  rpb : ∀ s, b.reqRpb s = if s ∈ L then saveRecord (a.reqRpb s) else a.reqRpb s

theorem Saved.nil (a : Request) : Saved [] a a := ⟨rfl, fun s => by simp⟩

theorem Saved.single (a : Request) (s : Nat) : Saved [s] a (a.save s) := by
  refine ⟨rfl, fun t => ?_⟩
  show (if t = s then saveRecord (a.reqRpb s) else a.reqRpb t) = _
  by_cases same : t = s
  · subst same
    simp
  · simp [same]

theorem Saved.append (h : Saved L a b) (h' : Saved L' b c) : Saved (L ++ L') a c := by
  refine ⟨h'.count.trans h.count, fun s => ?_⟩
  rw [h'.rpb, h.rpb]
  by_cases first : s ∈ L <;> by_cases second : s ∈ L' <;>
    simp [first, second, saveRecord_saveRecord]

theorem saved_foldl (L : List Nat) (a : Request) : Saved L a (L.foldl Request.save a) := by
  induction L generalizing a with
  | nil => exact Saved.nil a
  | cons s L ih => exact (Saved.single a s).append (ih _)

theorem marked_eq {items : List Nat} {n : Nat} (h : n ≤ 128) :
    marked n items = some ((List.range n).filter (· ∈ items)) := if_pos h

mutual

/-- The walk saves the streams that it visits. -/
theorem pushRpbs_spec (rsb : Rsb) (a : Request)
    (room : marksStreams rsb = true → a.reqCount ≤ 128) :
    ∃ b, pushRpbs rsb a = some b ∧ Saved (pushed a.reqCount rsb) a b := by
  cases rsb with
  | scan rsbType evaluates stream => exact ⟨_, rfl, Saved.single a stream⟩
  | union evaluates stream irsbCount arms => exact ⟨_, rfl, Saved.single a stream⟩
  | aggregate evaluates stream state next => exact ⟨_, rfl, Saved.single a stream⟩
  | sort evaluates map next =>
    refine ⟨_, ?_, saved_foldl _ a⟩
    unfold pushRpbs
    rw [marked_eq (room rfl)]
    rfl
  | merge sorts =>
    refine ⟨_, ?_, saved_foldl _ a⟩
    unfold pushRpbs
    rw [marked_eq (room rfl)]
    rfl
  | first evaluates irsbCount next => exact pushRpbs_spec next a room
  | skip evaluates next => exact pushRpbs_spec next a room
  | boolean evaluates next => exact pushRpbs_spec next a room
  | cross project args => exact pushAll_spec args a room
  | leftCross evaluates phase outer inner =>
    obtain ⟨b, run, saved⟩ := pushRpbs_spec outer a fun h => room (by simp [marksStreams, h])
    obtain ⟨c, run', saved'⟩ := pushRpbs_spec inner b fun h => by
      rw [saved.count]
      exact room (by simp [marksStreams, h])
    rw [saved.count] at saved'
    refine ⟨c, ?_, saved.append saved'⟩
    unfold pushRpbs
    rw [run, Option.bind_some, run']

theorem pushAll_spec (args : List Rsb) (a : Request)
    (room : marksStreamsAny args = true → a.reqCount ≤ 128) :
    ∃ b, pushAll args a = some b ∧ Saved (pushedAll a.reqCount args) a b := by
  cases args with
  | nil => exact ⟨a, rfl, Saved.nil a⟩
  | cons rsb args =>
    obtain ⟨b, run, saved⟩ := pushRpbs_spec rsb a fun h => room (by simp [marksStreamsAny, h])
    obtain ⟨c, run', saved'⟩ := pushAll_spec args b fun h => by
      rw [saved.count]
      exact room (by simp [marksStreamsAny, h])
    rw [saved.count] at saved'
    refine ⟨c, ?_, saved.append saved'⟩
    unfold pushAll
    rw [run, Option.bind_some, run']

end

theorem foldl_save_count (L : List Nat) (a : Request) :
    (L.foldl Request.save a).reqCount = a.reqCount := (saved_foldl L a).count

mutual

/-- The array of the walk has room for 128 streams. -/
theorem pushRpbs_room (rsb : Rsb) (a b : Request) (run : pushRpbs rsb a = some b) :
    b.reqCount = a.reqCount ∧ (marksStreams rsb = true → a.reqCount ≤ 128) := by
  cases rsb with
  | scan rsbType evaluates stream =>
    obtain rfl := Option.some.inj run
    exact ⟨rfl, fun h => absurd h (by simp [marksStreams])⟩
  | union evaluates stream irsbCount arms =>
    obtain rfl := Option.some.inj run
    exact ⟨rfl, fun h => absurd h (by simp [marksStreams])⟩
  | aggregate evaluates stream state next =>
    obtain rfl := Option.some.inj run
    exact ⟨rfl, fun h => absurd h (by simp [marksStreams])⟩
  | sort evaluates map next =>
    unfold pushRpbs marked at run
    by_cases room : a.reqCount ≤ 128
    · rw [if_pos room] at run
      obtain rfl := Option.some.inj run
      exact ⟨foldl_save_count _ _, fun _ => room⟩
    · rw [if_neg room] at run
      exact absurd run (by simp)
  | merge sorts =>
    unfold pushRpbs marked at run
    by_cases room : a.reqCount ≤ 128
    · rw [if_pos room] at run
      obtain rfl := Option.some.inj run
      exact ⟨foldl_save_count _ _, fun _ => room⟩
    · rw [if_neg room] at run
      exact absurd run (by simp)
  | first evaluates irsbCount next => exact pushRpbs_room next a b run
  | skip evaluates next => exact pushRpbs_room next a b run
  | boolean evaluates next => exact pushRpbs_room next a b run
  | cross project args => exact pushAll_room args a b run
  | leftCross evaluates phase outer inner =>
    unfold pushRpbs at run
    obtain ⟨c, run, run'⟩ := Option.bind_eq_some_iff.mp run
    obtain ⟨count, room⟩ := pushRpbs_room outer a c run
    obtain ⟨count', room'⟩ := pushRpbs_room inner c b run'
    refine ⟨count'.trans count, fun h => ?_⟩
    rw [marksStreams, Bool.or_eq_true] at h
    rcases h with h | h
    · exact room h
    · exact count ▸ room' h

theorem pushAll_room (args : List Rsb) (a b : Request) (run : pushAll args a = some b) :
    b.reqCount = a.reqCount ∧ (marksStreamsAny args = true → a.reqCount ≤ 128) := by
  cases args with
  | nil =>
    obtain rfl := Option.some.inj run
    exact ⟨rfl, fun h => absurd h (by simp [marksStreamsAny])⟩
  | cons rsb args =>
    unfold pushAll at run
    obtain ⟨c, run, run'⟩ := Option.bind_eq_some_iff.mp run
    obtain ⟨count, room⟩ := pushRpbs_room rsb a c run
    obtain ⟨count', room'⟩ := pushAll_room args c b run'
    refine ⟨count'.trans count, fun h => ?_⟩
    rw [marksStreamsAny, Bool.or_eq_true] at h
    rcases h with h | h
    · exact room h
    · exact count ▸ room' h

end

theorem restoreRecord_copy (h : restoreRecord rpb = some rpb') : rpb'.rpbCopy = none := by
  unfold restoreRecord at h
  split at h
  · rename_i none
    rw [← Option.some.inj h]
    exact none
  · split at h
    · exact absurd h (by simp)
    · dsimp only at h
      split at h
      · exact absurd h (by simp)
      · rw [← Option.some.inj h]

theorem restoreRecord_none (h : rpb.rpbCopy = none) : restoreRecord rpb = some rpb := by
  unfold restoreRecord
  rw [h]

/-- What is restored of a request. -/
structure Restored (L : List Nat) (a b : Request) : Prop where
  count : b.reqCount = a.reqCount
  visited : ∀ s ∈ L, restoreRecord (a.reqRpb s) = some (b.reqRpb s)
  others : ∀ s ∉ L, b.reqRpb s = a.reqRpb s

theorem Restored.nil (a : Request) : Restored [] a a :=
  ⟨rfl, fun _ hs => absurd hs List.not_mem_nil, fun _ _ => rfl⟩

theorem Restored.single (h : a.restore s = some b) : Restored [s] a b := by
  obtain ⟨rpb, restored, rfl⟩ := Option.map_eq_some_iff.mp h
  refine ⟨rfl, fun t ht => ?_, fun t ht => ?_⟩
  · obtain rfl := List.mem_singleton.mp ht
    rw [restored]
    exact congrArg some (if_pos rfl).symm
  · exact if_neg fun same => ht (List.mem_singleton.mpr same)

theorem Restored.append (h : Restored L a b) (h' : Restored L' b c) : Restored (L ++ L') a c := by
  refine ⟨h'.count.trans h.count, fun s hs => ?_, fun s hs => ?_⟩
  · by_cases first : s ∈ L
    · have restored := h.visited s first
      by_cases second : s ∈ L'
      · have again := h'.visited s second
        rw [restoreRecord_none (restoreRecord_copy restored)] at again
        rw [restored, again]
      · rw [restored, h'.others s second]
    · have second := (List.mem_append.mp hs).resolve_left first
      rw [← h'.visited s second, h.others s first]
  · rw [List.mem_append, not_or] at hs
    rw [h'.others s hs.2, h.others s hs.1]

/-- No record of the streams has become shorter than its copy. -/
def Restorable (L : List Nat) (a : Request) : Prop :=
  ∀ s ∈ L, (restoreRecord (a.reqRpb s)).isSome = true

theorem Restorable.rest (ok : Restorable (L ++ L') a) (h : Restored L a b) : Restorable L' b := by
  intro s hs
  by_cases first : s ∈ L
  · rw [restoreRecord_none (restoreRecord_copy (h.visited s first))]
    rfl
  · rw [h.others s first]
    exact ok s (List.mem_append_right _ hs)

theorem restore_exists (ok : Restorable [s] a) : ∃ b, a.restore s = some b ∧ Restored [s] a b := by
  obtain ⟨rpb, restored⟩ := Option.isSome_iff_exists.mp (ok s (List.mem_singleton.mpr rfl))
  have run : a.restore s = some (a.set s rpb) := by
    unfold Request.restore
    rw [restored]
    rfl
  exact ⟨_, run, Restored.single run⟩

theorem restored_foldlM (L : List Nat) (a : Request) (ok : Restorable L a) :
    ∃ b, L.foldlM Request.restore a = some b ∧ Restored L a b := by
  induction L generalizing a with
  | nil => exact ⟨a, rfl, Restored.nil a⟩
  | cons s L ih =>
    obtain ⟨b, run, restored⟩ := restore_exists fun t ht =>
      ok t (List.mem_singleton.mp ht ▸ List.mem_cons_self)
    have rest : Restorable L b := Restorable.rest (L := [s]) ok restored
    obtain ⟨c, run', restored'⟩ := ih b rest
    refine ⟨c, ?_, restored.append restored'⟩
    rw [List.foldlM_cons, run]
    exact run'

mutual

/-- The walk restores the streams that it visits. -/
theorem popRpbs_spec (rsb : Rsb) (a : Request) (room : marksStreams rsb = true → a.reqCount ≤ 128)
    (ok : Restorable (popped a.reqCount rsb) a) :
    ∃ b, popRpbs rsb a = some b ∧ Restored (popped a.reqCount rsb) a b := by
  cases rsb with
  | scan rsbType evaluates stream => exact restore_exists ok
  | union evaluates stream irsbCount arms => exact restore_exists ok
  | aggregate evaluates stream state next => exact restore_exists ok
  | sort evaluates map next =>
    obtain ⟨b, run, restored⟩ := restored_foldlM _ a ok
    refine ⟨b, ?_, restored⟩
    unfold popRpbs
    rw [marked_eq (room rfl), Option.bind_some]
    exact run
  | merge sorts =>
    obtain ⟨b, run, restored⟩ := restored_foldlM _ a ok
    refine ⟨b, ?_, restored⟩
    unfold popRpbs
    rw [marked_eq (room rfl), Option.bind_some]
    exact run
  | first evaluates irsbCount next => exact popRpbs_spec next a room ok
  | skip evaluates next => exact popRpbs_spec next a room ok
  | boolean evaluates next => exact popRpbs_spec next a room ok
  | cross project args => exact popAll_spec args a room ok
  | leftCross evaluates phase outer inner =>
    obtain ⟨b, run, restored⟩ := popRpbs_spec outer a (fun h => room (by simp [marksStreams, h]))
      fun s hs => ok s (List.mem_append_left _ hs)
    obtain ⟨c, run', restored'⟩ := popRpbs_spec inner b
      (fun h => by
        rw [restored.count]
        exact room (by simp [marksStreams, h]))
      (by
        rw [restored.count]
        exact Restorable.rest ok restored)
    rw [restored.count] at restored'
    refine ⟨c, ?_, restored.append restored'⟩
    unfold popRpbs
    rw [run, Option.bind_some, run']

theorem popAll_spec (args : List Rsb) (a : Request)
    (room : marksStreamsAny args = true → a.reqCount ≤ 128)
    (ok : Restorable (poppedAll a.reqCount args) a) :
    ∃ b, popAll args a = some b ∧ Restored (poppedAll a.reqCount args) a b := by
  cases args with
  | nil => exact ⟨a, rfl, Restored.nil a⟩
  | cons rsb args =>
    obtain ⟨b, run, restored⟩ := popRpbs_spec rsb a (fun h => room (by simp [marksStreamsAny, h]))
      fun s hs => ok s (List.mem_append_left _ hs)
    obtain ⟨c, run', restored'⟩ := popAll_spec args b
      (fun h => by
        rw [restored.count]
        exact room (by simp [marksStreamsAny, h]))
      (by
        rw [restored.count]
        exact Restorable.rest ok restored)
    rw [restored.count] at restored'
    refine ⟨c, ?_, restored.append restored'⟩
    unfold popAll
    rw [run, Option.bind_some, run']

end

theorem everyOther_subset {α : Type} (xs : List α) : everyOther xs ⊆ xs := by
  fun_induction everyOther xs with
  | case1 => exact List.Subset.refl _
  | case2 x => exact List.Subset.refl _
  | case3 x y xs ih =>
    intro z hz
    rcases List.mem_cons.mp hz with rfl | hz
    · exact List.mem_cons_self
    · exact List.mem_cons_of_mem _ (List.mem_cons_of_mem _ (ih hz))

mutual

/-- Only streams that are saved are restored. -/
theorem popped_subset (n : Nat) (rsb : Rsb) : popped n rsb ⊆ pushed n rsb := by
  cases rsb with
  | scan rsbType evaluates stream => exact List.Subset.refl _
  | union evaluates stream irsbCount arms => exact List.Subset.refl _
  | aggregate evaluates stream state next => exact List.Subset.refl _
  | sort evaluates map next => exact List.Subset.refl _
  | merge sorts =>
    intro s hs
    obtain ⟨range, mem⟩ := List.mem_filter.mp hs
    refine List.mem_filter.mpr ⟨range, ?_⟩
    simp only [List.mem_flatMap, decide_eq_true_eq] at mem ⊢
    obtain ⟨sort, hsort, mem⟩ := mem
    exact ⟨sort, hsort, everyOther_subset _ mem⟩
  | first evaluates irsbCount next => exact popped_subset n next
  | skip evaluates next => exact popped_subset n next
  | boolean evaluates next => exact popped_subset n next
  | cross project args => exact poppedAll_subset n args
  | leftCross evaluates phase outer inner =>
    exact List.append_subset.mpr
      ⟨List.Subset.trans (popped_subset n outer) (List.subset_append_left _ _),
        List.Subset.trans (popped_subset n inner) (List.subset_append_right _ _)⟩

theorem poppedAll_subset (n : Nat) (args : List Rsb) : poppedAll n args ⊆ pushedAll n args := by
  cases args with
  | nil => exact List.Subset.refl _
  | cons rsb args =>
    exact List.append_subset.mpr
      ⟨List.Subset.trans (popped_subset n rsb) (List.subset_append_left _ _),
        List.Subset.trans (poppedAll_subset n args) (List.subset_append_right _ _)⟩

end

theorem SameRecord.refl (rpb : Rpb) : SameRecord rpb rpb :=
  ⟨rfl, rfl, rfl, id, fun r h => ⟨r, h, rfl, rfl, List.take_length⟩⟩

/-- A copy that is restored over a record of at least its length is the record that was saved. -/
theorem restoreRecord_same {r r' : Rec} (saved : rpb.rpbRecord = some r)
    (copy : rpb'.rpbCopy = (saveRecord rpb).rpbCopy) (current : rpb'.rpbRecord = some r')
    (length : r.recData.length ≤ r'.recData.length) :
    ∃ q, restoreRecord rpb' = some q ∧ SameRecord rpb q := by
  rw [saveRecord_copy, saved, Option.map_some] at copy
  have restored : restoreRecord rpb' = some
      { rpbNumber := rpb.rpbNumber
        rpbTransaction := rpb.rpbTransaction
        rpbFormatNumber := rpb.rpbFormatNumber
        rpbRecord := some ⟨r.recFormat, r.recNumber, r.recData ++ r'.recData.drop r.recData.length⟩
        rpbCopy := none
        copied := fun h => absurd h (by simp) } := by
    unfold restoreRecord
    rw [copy, current]
    exact if_neg (Nat.not_lt.mpr length)
  refine ⟨_, restored, rfl, rfl, rfl, ?_, ?_⟩
  · intro none
    rw [saved] at none
    exact absurd none (by simp)
  · intro q hq
    obtain rfl := Option.some.inj (saved.symm.trans hq)
    exact ⟨_, rfl, rfl, rfl, List.take_left⟩

theorem SameRecord.saved (rpb : Rpb) : SameRecord rpb (saveRecord rpb) :=
  ⟨saveRecord_number _, saveRecord_transaction _, saveRecord_formatNumber _,
    fun none => (saveRecord_record _).trans none,
    fun r hr => ⟨r, (saveRecord_record _).trans hr, rfl, rfl, List.take_length⟩⟩

/-- What the walks leave of a fetch: the record where a visited stream had one, and what was
fetched elsewhere. -/
theorem popRpbs_fetched {before saved after : Request}
    (push : Saved (pushed before.reqCount rsb) before saved) (fetch : Fetches rsb saved after)
    (room : marksStreams rsb = true → before.reqCount ≤ 128) :
    ∃ result, popRpbs rsb after = some result ∧
      (∀ s ∈ popped before.reqCount rsb, (before.reqRpb s).rpbRecord.isSome = true →
        SameRecord (before.reqRpb s) (result.reqRpb s)) ∧
      ∀ s, (s ∈ popped before.reqCount rsb → (before.reqRpb s).rpbRecord = none) →
        result.reqRpb s = after.reqRpb s := by
  have count : after.reqCount = before.reqCount := fetch.count.trans push.count
  have copies : ∀ s ∈ popped before.reqCount rsb,
      (after.reqRpb s).rpbCopy = (saveRecord (before.reqRpb s)).rpbCopy := by
    intro s hs
    have visited := popped_subset _ _ hs
    rw [fetch.copies s (push.count ▸ visited), push.rpb, if_pos visited]
  have restores : ∀ s ∈ popped before.reqCount rsb, ∀ r, (before.reqRpb s).rpbRecord = some r →
      ∃ q, restoreRecord (after.reqRpb s) = some q ∧ SameRecord (before.reqRpb s) q := by
    intro s hs r hr
    have record : (saved.reqRpb s).rpbRecord = some r := by
      rw [push.rpb, if_pos (popped_subset _ _ hs), saveRecord_record, hr]
    obtain ⟨r', current, length⟩ := fetch.records s r record
    exact restoreRecord_same hr (copies s hs) current length
  have missing : ∀ s ∈ popped before.reqCount rsb, (before.reqRpb s).rpbRecord = none →
      restoreRecord (after.reqRpb s) = some (after.reqRpb s) := by
    intro s hs none
    refine restoreRecord_none ?_
    rw [copies s hs, saveRecord_copy, none, Option.map_none]
  have ok : Restorable (popped after.reqCount rsb) after := by
    rw [count]
    intro s hs
    cases h : (before.reqRpb s).rpbRecord with
    | none =>
      rw [missing s hs h]
      rfl
    | some r =>
      obtain ⟨q, restored, -⟩ := restores s hs r h
      rw [restored]
      rfl
  obtain ⟨result, run, restored⟩ := popRpbs_spec rsb after (count ▸ room) ok
  rw [count] at restored
  refine ⟨result, run, fun s hs present => ?_, fun s absent => ?_⟩
  · obtain ⟨r, hr⟩ := Option.isSome_iff_exists.mp present
    obtain ⟨q, restore, same⟩ := restores s hs r hr
    have equal := (restored.visited s hs).symm.trans restore
    rw [Option.some.inj equal]
    exact same
  · by_cases hs : s ∈ popped before.reqCount rsb
    · have equal := (restored.visited s hs).symm.trans (missing s hs (absent hs))
      exact Option.some.inj equal
    · exact restored.others s hs

theorem saved_sameRecord {before saved : Request} (push : Saved L before saved) (s : Nat) :
    SameRecord (before.reqRpb s) (saved.reqRpb s) := by
  rw [push.rpb]
  split
  · exact SameRecord.saved _
  · exact SameRecord.refl _

/-- A fetch that reads another record into one stream. -/
def fetchInto (request : Request) (s : Nat) : Request :=
  { request with
    reqRpb := fun t =>
      if t = s then
        { request.reqRpb s with
          rpbNumber := (request.reqRpb s).rpbNumber + 1
          rpbRecord := some (((request.reqRpb s).rpbRecord).getD ⟨none, 0, []⟩)
          copied := fun _ => rfl }
      else request.reqRpb t }

theorem fetchInto_number (request : Request) (s : Nat) :
    ((fetchInto request s).reqRpb s).rpbNumber = (request.reqRpb s).rpbNumber + 1 := by
  unfold fetchInto
  dsimp only
  rw [if_pos rfl]

theorem fetchInto_fetches (mem : s ∈ touched rsb) : Fetches rsb request (fetchInto request s) where
  count := rfl
  others t ht := if_neg fun same : t = s => ht (same.symm ▸ mem)
  copies t _ := by
    unfold fetchInto
    dsimp only
    split
    · rename_i same
      rw [same]
    · rfl
  records t r hr := by
    unfold fetchInto
    dsimp only
    split
    · rename_i same
      subst same
      exact ⟨r, by rw [hr]; rfl, Nat.le_refl _⟩
    · exact ⟨r, hr, Nat.le_refl _⟩

end

/-- Two streams are sorted together and merged with a third. -/
def evenSort : Rsb :=
  .merge
    [.sort [] [⟨0, false⟩, ⟨1, false⟩, ⟨0, false⟩, ⟨1, false⟩, ⟨0, false⟩, ⟨1, false⟩]
      (.cross false [.scan .sequential [] 0, .scan .sequential [] 1]),
      .sort [] [⟨2, false⟩, ⟨2, false⟩, ⟨2, false⟩] (.scan .sequential [] 2)]

def evenRequest : Request where
  reqCount := 3
  reqRpb := fun _ => ⟨0, 1, 1, some ⟨some 1, 0, [7]⟩, none, by simp⟩

end InterBase.Singular
