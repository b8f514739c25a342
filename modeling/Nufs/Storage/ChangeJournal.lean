/-
The change journal of a datanode: asynchronous state changes, numbered, kept in log
files until metadata has acknowledged them.

An event is written with its length in front and its checksum behind.  Reading a file
stops at the first place where no valid event stands.  Opening the journal resumes the
numbering from the events it can read, and appends to the newest file, whatever its
last bytes are.  The acknowledged number lives in memory only.

Retention and heartbeat limits are not modelled: the journal stores them and reads none
of them.
-/
import Nufs.Storage.Types
import Nufs.Lib.Stream

namespace Nufs.Storage

open Layout

/-! ### Events -/

/-- The kinds of events; `unknown` is any byte that has no name. -/
inductive ChangeEventKind
  | corrupt | diskLost | segmentLost | relocated | thirdReplicaComplete | repairCreated
  | scrubFinding | deleteComplete
  | unknown (b : UInt8) (h : 8 ≤ b)
  deriving DecidableEq, Repr

namespace ChangeEventKind

def toByte : ChangeEventKind → UInt8
  | corrupt => 0
  | diskLost => 1
  | segmentLost => 2
  | relocated => 3
  | thirdReplicaComplete => 4
  | repairCreated => 5
  | scrubFinding => 6
  | deleteComplete => 7
  | unknown b _ => b

def ofByte (b : UInt8) : ChangeEventKind :=
  if h : 8 ≤ b then unknown b h
  else if b = 0 then corrupt
  else if b = 1 then diskLost
  else if b = 2 then segmentLost
  else if b = 3 then relocated
  else if b = 4 then thirdReplicaComplete
  else if b = 5 then repairCreated
  else if b = 6 then scrubFinding
  else deleteComplete

theorem ofByte_toByte (k : ChangeEventKind) : ofByte k.toByte = k := by
  cases k with
  | unknown b h => exact dif_pos h
  | _ => rfl

end ChangeEventKind

/-- An asynchronous state change.  The reason is a byte string. -/
structure ChangeEvent where
  seq : UInt64
  kind : ChangeEventKind
  extentID : ExtentID
  generation : Generation
  segmentID : UInt64
  reason : List UInt8
  atUnix : Int64
  deriving DecidableEq, Repr

/-- `crc32.ChecksumIEEE`. -/
def crc32IEEE (bs : List UInt8) : UInt32 := Crc.crc32 Crc.ieee bs

/-- The fields of an event before its reason.  The lengths are cut to their widths. -/
def ChangeEvent.fixedFields (ev : ChangeEvent) : List Field :=
  [(4, 47 + ev.reason.length), f8 ev.kind.toByte, f64 ev.seq, f64 ev.extentID, f64 ev.generation,
    f64 ev.segmentID, f64 ev.atUnix.toUInt64, (2, ev.reason.length)]

/-- The part of an event that its checksum covers. -/
def ChangeEvent.body (ev : ChangeEvent) : List UInt8 :=
  layout ev.fixedFields ++ ev.reason

def encodeEvent (ev : ChangeEvent) : List UInt8 :=
  ev.body ++ layout [f32 (crc32IEEE ev.body)]

def eventSize (ev : ChangeEvent) : Nat :=
  4 + 1 + 8 + 8 + 8 + 8 + 8 + 2 + ev.reason.length + 4

/-- The event of a body whose checksum is right. -/
def decodeBody (body : List UInt8) : ChangeEvent where
  kind := .ofByte (u8At body 4)
  seq := u64At body 5
  extentID := u64At body 13
  generation := u64At body 21
  segmentID := u64At body 29
  atUnix := (u64At body 37).toInt64
  reason :=
    let rl := fieldAt body 45 2
    if 47 + rl ≤ body.length then (body.drop 47).take rl else []

/-- One turn of the loop of `decodeFile`: the event at the front, and what follows it. -/
def decodeEvent (data : List UInt8) : Option (ChangeEvent × List UInt8) :=
  if data.length < 8 then none
  else
    let bodyLen := fieldAt data 0 4
    if bodyLen < 47 ∨ data.length < bodyLen + 4 then none
    else
      let body := data.take bodyLen
      if crc32IEEE body ≠ u32At data bodyLen then none
      else some (decodeBody body, data.drop (bodyLen + 4))

/-- Every turn of the loop consumes bytes, so there are at most as many turns as bytes. -/
def decodeFile (data : List UInt8) : List ChangeEvent :=
  Stream.readAll decodeEvent data.length data

/-! ### The directory -/

/-- A log file; its name carries the rotation counter. -/
structure ChangeFile where
  gen : UInt64
  data : List UInt8
  deriving DecidableEq, Repr

/-- The log files of a directory, in the order of their names. -/
abbrev ChangeDir := List ChangeFile

/-- The events a directory holds, as far as they are read. -/
def ChangeDir.events (dir : ChangeDir) : List ChangeEvent :=
  dir.flatMap fun f => decodeFile f.data

/-- Write at the end of the file with the name. -/
def ChangeDir.write (dir : ChangeDir) (gen : UInt64) (bytes : List UInt8) : ChangeDir :=
  dir.map fun f => if f.gen = gen then { f with data := f.data ++ bytes } else f

/-! ### The journal -/

/-- An open journal.  `file` names the file it appends to. -/
structure ChangeJournal where
  seq : UInt64
  file : UInt64
  fileGen : UInt64
  ack : UInt64
  bytes : Nat
  maxBytes : Int
  deriving DecidableEq, Repr

namespace ChangeJournal

/-- The largest of some numbers. -/
def largest (ns : List UInt64) : UInt64 :=
  ns.foldl (fun m n => if m < n then n else m) 0

/-- `OpenChangeJournal`: the journal and the directory it leaves. -/
def openChangeJournal (dir : ChangeDir) (maxBytes : Int) : ChangeJournal × ChangeDir :=
  let limit : Int := if maxBytes = 0 then 8 * 2 ^ 30 else maxBytes
  let seq := largest (dir.events.map (·.seq))
  let fileGen := largest (dir.map (·.gen))
  match dir.getLast? with
  | some newest =>
    ({ seq, file := newest.gen, fileGen, ack := 0, bytes := newest.data.length,
       maxBytes := limit }, dir)
  | none =>
    ({ seq, file := fileGen + 1, fileGen := fileGen + 1, ack := 0, bytes := 0,
       maxBytes := limit }, [{ gen := fileGen + 1, data := [] }])

/-- What a caller of `Append` says about a change, and the time it says it. -/
structure Change where
  kind : ChangeEventKind
  extentID : ExtentID
  generation : Generation
  segmentID : UInt64
  reason : List UInt8
  now : Int64
  deriving DecidableEq, Repr

variable (j : ChangeJournal)

/-- The event that the next `Append` writes. -/
def nextEvent (c : Change) : ChangeEvent where
  seq := j.seq + 1
  kind := c.kind
  extentID := c.extentID
  generation := c.generation
  segmentID := c.segmentID
  reason := c.reason
  atUnix := c.now

/-- The number is taken before the bound is checked. -/
def taken : ChangeJournal := { j with seq := j.seq + 1 }

def overLimit (ev : ChangeEvent) : Bool :=
  decide (j.maxBytes < (j.bytes : Int) + (encodeEvent ev).length)

/-- `Append`: the event's number, the journal and the directory. -/
def append (dir : ChangeDir) (c : Change) :
    Except String UInt64 × ChangeJournal × ChangeDir :=
  let ev := j.nextEvent c
  if j.overLimit ev then
    (.error ("journal: max bytes reached (" ++ toString j.maxBytes ++ "), force reconciliation"),
      j.taken, dir)
  else
    (.ok ev.seq, { j.taken with bytes := j.bytes + (encodeEvent ev).length },
      dir.write j.file (encodeEvent ev))

/-- A process that dies in `Append` leaves the first `k` bytes of the event, if any. -/
def cutAppend (dir : ChangeDir) (c : Change) (k : Nat) : ChangeDir :=
  let ev := j.nextEvent c
  if j.overLimit ev then dir else dir.write j.file ((encodeEvent ev).take k)

/-- `Ack`. -/
def acknowledge (seq : UInt64) : ChangeJournal :=
  if j.ack < seq then { j with ack := seq } else j

/-- The loop of `Pending` over the events of all files. -/
def collect (ack : UInt64) (maxEvents maxBytes : Int) :
    List ChangeEvent → List ChangeEvent → Nat → List ChangeEvent
  | [], out, _ => out
  | ev :: evs, out, sentBytes =>
    if ev.seq ≤ ack then collect ack maxEvents maxBytes evs out sentBytes
    else if maxEvents ≤ out.length ∨ maxBytes ≤ sentBytes then out
    else collect ack maxEvents maxBytes evs (out ++ [ev]) (sentBytes + eventSize ev)

/-- `Pending`: the events above the acknowledged number, and the next number to send. -/
def pending (j : ChangeJournal) (dir : ChangeDir) (maxEvents maxBytes : Int) :
    List ChangeEvent × UInt64 :=
  let out := collect j.ack maxEvents maxBytes dir.events [] 0
  (out, j.ack + UInt64.ofNat out.length)

end ChangeJournal

/-! ### Lives of a journal -/

/-- What happens to a journal directory.  A process may die in an append or between calls. -/
inductive JournalCall
  | openJournal (maxBytes : Int)
  | append (c : ChangeJournal.Change)
  | dieInAppend (c : ChangeJournal.Change) (k : Nat)
  | ack (seq : UInt64)
  | closeJournal
  deriving DecidableEq, Repr

/-- A directory with the journal that is open on it, and what its callers know of it. -/
structure JournalLife where
  dir : ChangeDir
  journal : Option ChangeJournal
  /-- The events whose `Append` returned success, oldest first. -/
  appended : List ChangeEvent
  /-- The highest number that was acknowledged. -/
  lastAck : UInt64
  deriving DecidableEq, Repr

namespace JournalLife

/-- A directory with no log file. -/
def empty : JournalLife := { dir := [], journal := none, appended := [], lastAck := 0 }

/-- An append that returns success is remembered. -/
def afterAppend (s : JournalLife) (j : ChangeJournal) (c : ChangeJournal.Change) : JournalLife :=
  let (result, j', dir') := j.append s.dir c
  match result with
  | .ok _ =>
    { s with dir := dir', journal := some j', appended := s.appended ++ [j.nextEvent c] }
  | .error _ => { s with dir := dir', journal := some j' }

/-- A call is possible if the journal is open, and opening is possible if it is not. -/
def step (s : JournalLife) : JournalCall → Option JournalLife
  | .openJournal maxBytes =>
    match s.journal with
    | none =>
      let (j, dir) := ChangeJournal.openChangeJournal s.dir maxBytes
      some { s with dir, journal := some j }
    | some _ => none
  | .append c => s.journal.map fun j => s.afterAppend j c
  | .dieInAppend c k =>
    s.journal.bind fun j =>
      if k < (encodeEvent (j.nextEvent c)).length then
        some { s with dir := j.cutAppend s.dir c k, journal := none }
      else none
  | .ack seq =>
    s.journal.map fun j =>
      { s with journal := some (j.acknowledge seq)
               lastAck := if s.lastAck < seq then seq else s.lastAck }
  | .closeJournal => s.journal.map fun _ => { s with journal := none }

end JournalLife

end Nufs.Storage
