import Vibesys.Library.Run
import Vibesys.Lifecycle.Entry

/-!
# The supervisor host, for one job

What is known of a run is spread over a record outside the runtime directory, the run's directory in it, the
lock on a file in the directory, and the start mark in the record. Each call of the daemon is cut into its file
operations and requests, any of which may fail, and between any two the daemon may crash, the machine reboot, the
runtime directory be emptied, and a supervisor come up or die. Other jobs have other records and directories.

A file is known by the inode it has, so that a supervisor whose directory was removed keeps its lock on a file
that nobody finds any more. `told` and `proved` say what happened to the run so far: whether a supervisor was
sent a start, and whether the run was said to be gone.
-/
namespace Vibesys.Supervise

open Lifecycle (DeathProof Start RunPhase)

variable {L : Type*}

/-- What is known of a run outside its directory. `sent` is the start mark. -/
structure Record (L : Type*) where
  boot : ℕ
  launch : L
  sent : Bool
  deriving DecidableEq

/-- A run's directory: the launch, the file the supervisor locks, and the process that listens on the socket. -/
structure Dir (L : Type*) where
  launch : Option L := none
  alive : Option ℕ := none
  socket : Option ℕ := none
  deriving DecidableEq

/-- Where a supervisor process is in `Serve`. It opens the file, waits for its lock, reads the directory and
listens. Once it is released it is on its way out, and holds its lock till it has ended. -/
inductive Phase
  | coming
  | waiting (alive : ℕ)
  | up (alive : ℕ)
  | serving (alive : ℕ) (run : RunPhase)
  | ended
  deriving DecidableEq

namespace Phase

/-- It runs no command and cannot be told to. -/
def over_ : Phase → Bool
  | .serving _ .released => true
  | .ended => true
  | _ => false

def opened : Phase → Option ℕ
  | .waiting i => some i
  | .up i => some i
  | .serving i _ => some i
  | _ => none

def holds (i : ℕ) : Phase → Bool
  | .up j => i = j
  | .serving j _ => i = j
  | _ => false

def early : Phase → Bool
  | .coming => true
  | .waiting _ => true
  | _ => false

end Phase

/-- The call a daemon is in, after the steps it has made. `down` is no daemon and `idle` one that is in no call. -/
inductive Task (L : Type*)
  | down
  | idle
  | recorded (l : L)
  | made (l : L)
  | written
  | started (pid : ℕ)
  | cleaning
  | cleaned
  | probing (launch : Option L)
  | marking (pid : ℕ)
  | sending (pid : ℕ)
  | proving (release : Bool)
  | forgetting (lock : Option ℕ)
  | forgotten (lock : Option ℕ)
  deriving DecidableEq

/-- What a probe finds of a run. -/
inductive Run (L : Type*)
  | alive (pid : ℕ) (launch : L)
  | dead (proof : DeathProof) (start : Start) (launch : Option L)
  | unknown (launch : Option L)
  | none_
  deriving DecidableEq

/-- What a call returns. `gone` is a handle's error with the proof. -/
inductive Answer (L : Type*)
  | spawned (pid : ℕ)
  | spawnFailed
  | run (r : Run L)
  | gone (proof : DeathProof) (start : Option Start)
  | done
  | failed
  | forgot
  deriving DecidableEq

structure World (L : Type*) where
  boot : ℕ := 0
  record : Option (Record L) := none
  dir : Option (Dir L) := none
  inodes : ℕ := 0
  procs : List Phase := []
  task : Task L := .down
  released : Bool := false
  told : Bool := false
  proved : Bool := false
  deriving DecidableEq

/-- How a request to a supervisor returns: answered, with a connection that is gone, or with another error. -/
inductive Reply
  | ok
  | gone
  | failed
  deriving DecidableEq

/-- The moves of supervisors and of the machine, and then the daemon's, one for each step of a call. A flag that is
false makes its file operation or its request fail. -/
inductive Move (L : Type*)
  | opens (pid : ℕ)
  | locks (pid : ℕ)
  | serves (pid : ℕ) (ok : Bool)
  | finishes (pid : ℕ)
  | dies (pid : ℕ)
  | empty
  | reboot
  | crash
  | daemon
  | spawn (l : L) (ok : Bool)
  | mkdir (ok : Bool)
  | writeLaunch (ok : Bool)
  | startProcess (ok : Bool)
  | connect (ok : Bool)
  | removeSome (launch alive socket : Bool)
  | removeAll (ok : Bool)
  | removeRecord (ok : Bool)
  | probe (stat connects launch record boot : Bool)
  | test (lock record : Bool)
  | look (pid : ℕ) (lock record : Bool)
  | mark (ok : Bool)
  | send (delivered : Bool) (reply : Reply)
  | ask (reply : Reply)
  | release (pid : ℕ) (delivered : Bool) (reply : Reply)
  | prove (lock record : Bool)
  | forget (proof : DeathProof) (stat lock : Bool)

namespace World

variable (w : World L)

def setPhase (pid : ℕ) (f : Phase → Phase) : World L := { w with procs := w.procs.modify pid f }

/-- The lock of a file is taken, by a supervisor or by the daemon in a `Forget`. -/
def held (i : ℕ) : Bool :=
  w.procs.any (Phase.holds i) ||
    match w.task with
    | .forgetting lock => lock = some i
    | .forgotten lock => lock = some i
    | _ => false

/-- The file that is locked in a directory, made when it is not there. -/
def openAlive (d : Dir L) : World L × ℕ :=
  match d.alive with
  | some i => (w,i)
  | none => ({ w with dir := some { d with alive := some w.inodes }, inodes := w.inodes+1 },w.inodes)

/-- `TryLock` on the run's file: `none` for an error, else whether the lock could be taken, and the file. -/
def tryLock (ok : Bool) : World L × Option (Bool × ℕ) :=
  match w.dir with
  | none => (w,none)
  | some d =>
    if ok then
      let (w,i) := w.openAlive d
      (w,some (!w.held i,i))
    else (w,none)

/-- What the record proves of the run's start. -/
def startOf (ok : Bool) : Start :=
  match w.record with
  | some r => if ok && !r.sent then .neverStarted else .mayHaveStarted
  | none => .mayHaveStarted

def listening : Option ℕ :=
  match w.dir with
  | some d => d.socket.filter fun pid => (w.procs[pid]?).any fun ph => match ph with | .serving _ _ => true | _ => false
  | none => none

section Supervisors

/-- A supervisor opens the file it will lock, in the directory it was started on. -/
def opens (pid : ℕ) : World L :=
  match w.procs[pid]?,w.dir with
  | some .coming,some d =>
    let (w,i) := w.openAlive d
    w.setPhase pid fun _ => .waiting i
  | some .coming,none => w.setPhase pid fun _ => .ended
  | _,_ => w

def locks (pid : ℕ) : World L :=
  match w.procs[pid]? with
  | some (.waiting i) => if w.held i then w else w.setPhase pid fun _ => .up i
  | _ => w

/-- With its lock a supervisor reads the launch and listens, and ends when either cannot be done. -/
def serves (pid : ℕ) (ok : Bool) : World L :=
  match w.procs[pid]?,w.dir with
  | some (.up i),some d =>
    if ok && d.launch.isSome && d.socket.isNone then
      { w with dir := some { d with socket := some pid } }.setPhase pid fun _ => .serving i .parked
    else w.setPhase pid fun _ => .ended
  | some (.up _),none => w.setPhase pid fun _ => .ended
  | _,_ => w

def finishes (pid : ℕ) : World L :=
  w.setPhase pid fun ph =>
    match ph with
    | .serving i .running => .serving i .finished
    | ph => ph

/-- A process that ends drops its lock, and leaves its socket file behind or not. -/
def dies (pid : ℕ) : World L := w.setPhase pid fun _ => .ended

end Supervisors

section Calls

def return_ (a : Answer L) : World L × Option (Answer L) := ({ w with task := .idle },some a)

def goOn (t : Task L) : World L × Option (Answer L) := ({ w with task := t },none)

def hasRun : Bool := w.record.isSome || w.dir.isSome

/-- `Spawn` writes the record first, over any that is there. A new run begins with it, or with the directory when
something is left of another. -/
def spawn (l : L) (ok : Bool) : World L × Option (Answer L) :=
  if ok then
    { w with
      record := some ⟨w.boot,l,false⟩
      told := w.hasRun && w.told
      proved := w.hasRun && w.proved }.goOn (.recorded l)
  else w.return_ .spawnFailed

def mkdir (l : L) (ok : Bool) : World L × Option (Answer L) :=
  match w.dir with
  | some _ => w.return_ .spawnFailed
  | none =>
    if ok then { w with dir := some {}, told := false, proved := false }.goOn (.made l) else w.return_ .spawnFailed

def writeLaunch (l : L) (ok : Bool) : World L × Option (Answer L) :=
  match w.dir with
  | some d => if ok then { w with dir := some { d with launch := some l } }.goOn .written else w.goOn .cleaning
  | none => w.goOn .cleaning

def startProcess (ok : Bool) : World L × Option (Answer L) :=
  if ok then { w with procs := w.procs ++ [Phase.coming] }.goOn (.started w.procs.length) else w.goOn .cleaning

/-- A supervisor that does not serve, or that cannot be reached, is killed with its group and waited for. -/
def connect (pid : ℕ) (ok : Bool) : World L × Option (Answer L) :=
  if ok && w.listening = some pid then w.return_ (.spawned pid) else (w.dies pid).goOn .cleaning

/-- `RemoveAll` removes the files of a directory one after another. -/
def removeSome (launch alive socket : Bool) : World L :=
  { w with
    dir := w.dir.map fun d =>
      { launch := if launch then none else d.launch
        alive := if alive then none else d.alive
        socket := if socket then none else d.socket } }

/-- A run with no directory is judged by its record. -/
def noDirectory (record boot : Bool) : World L × Option (Answer L) :=
  if record then
    match w.record with
    | none => w.return_ (.run .none_)
    | some r =>
      if !boot then w.return_ .failed
      else if r.boot ≠ w.boot then
        { w with proved := true }.return_ (.run (.dead .rebooted (w.startOf true) (some r.launch)))
      else w.return_ (.run (.unknown (some r.launch)))
  else w.return_ (.run (.unknown none))

def probe (stat connects launch record boot : Bool) : World L × Option (Answer L) :=
  match w.dir with
  | none => if stat then w.noDirectory record boot else w.return_ .failed
  | some d =>
    let launch := if launch then d.launch else none
    match w.listening,connects,launch with
    | some pid,true,some l => w.return_ (.run (.alive pid l))
    | some _,true,none => w.return_ (.run (.unknown none))
    | _,_,_ => w.goOn (.probing launch)

/-- The lock of the run's file decides. -/
def test (launch : Option L) (lock record : Bool) : World L × Option (Answer L) :=
  match w.tryLock lock with
  | (w,none) => w.return_ .failed
  | (w,some (false,_)) => w.return_ (.run (.unknown launch))
  | (w,some (true,_)) => { w with proved := true }.return_ (.run (.dead .lockFree (w.startOf record) launch))

def look (pid : ℕ) (lock record : Bool) : World L × Option (Answer L) :=
  match w.tryLock lock with
  | (w,some (true,_)) => { w with proved := true }.return_ (.gone .lockFree (some (w.startOf record)))
  | (w,_) => w.goOn (.marking pid)

def mark (pid : ℕ) (ok : Bool) : World L × Option (Answer L) :=
  match w.record with
  | some r => if ok then { w with record := some { r with sent := true } }.goOn (.sending pid) else w.return_ .failed
  | none => w.return_ .failed

/-- After a request: an answer, the proof of a supervisor that seems gone, or an error. -/
def replied (release : Bool) : Reply → World L × Option (Answer L)
  | .ok => w.return_ .done
  | .gone => w.goOn (.proving release)
  | .failed => w.return_ .failed

def send (pid : ℕ) (delivered : Bool) (reply : Reply) : World L × Option (Answer L) :=
  let w := { w with told := true }
  let w :=
    if delivered then
      w.setPhase pid fun ph =>
        match ph with
        | .serving i .parked => .serving i .running
        | ph => ph
    else w
  w.replied false reply

/-- A supervisor that runs no command lets go when it is asked to. -/
def letGo (ph : Phase) : Phase :=
  match ph with
  | .serving i .parked => .serving i .released
  | .serving i .finished => .serving i .released
  | ph => ph

/-- `Release` succeeds only when the supervisor answered that it is released. -/
def release (pid : ℕ) (delivered : Bool) (reply : Reply) : World L × Option (Answer L) :=
  let w := if delivered then w.setPhase pid letGo else w
  match reply,w.procs[pid]? with
  | .ok,some (.serving _ .released) => { w with released := true, proved := true }.return_ .done
  | .ok,_ => w.return_ .failed
  | reply,_ => w.replied true reply

/-- `proved`: a connection that is gone is turned into the proof of it. -/
def prove (release lock record : Bool) : World L × Option (Answer L) :=
  if w.released then w.return_ (.gone .released none)
  else
    match w.tryLock lock with
    | (w,some (true,_)) =>
      { w with released := release, proved := true }.return_ (.gone .lockFree (some (w.startOf record)))
    | (w,_) => w.return_ .failed

/-- `Forget` takes the lock and holds it, except for a supervisor that was released or a run with no directory. -/
def forget (proof : DeathProof) (stat lock : Bool) : World L × Option (Answer L) :=
  if !proof.Valid then w.return_ .failed
  else if stat && w.dir.isSome && proof ≠ .released then
    match w.tryLock lock with
    | (w,some (true,i)) => w.goOn (.forgetting (some i))
    | (w,_) => w.return_ .failed
  else w.goOn (.forgetting none)

def call : Task L → Move L → World L × Option (Answer L)
  | .idle,.spawn l ok => w.spawn l ok
  | .recorded l,.mkdir ok => w.mkdir l ok
  | .made l,.writeLaunch ok => w.writeLaunch l ok
  | .written,.startProcess ok => w.startProcess ok
  | .started pid,.connect ok => w.connect pid ok
  | .cleaning,.removeSome launch alive socket => (w.removeSome launch alive socket,none)
  | .cleaning,.removeAll ok => (if ok then { w with dir := none } else w).goOn .cleaned
  | .cleaned,.removeRecord ok => (if ok then { w with record := none } else w).return_ .spawnFailed
  | .idle,.probe stat connects launch record boot => w.probe stat connects launch record boot
  | .probing launch,.test lock record => w.test launch lock record
  | .idle,.look pid lock record => w.look pid lock record
  | .marking pid,.mark ok => w.mark pid ok
  | .sending pid,.send delivered reply => w.send pid delivered reply
  | .idle,.ask reply => w.replied false reply
  | .idle,.release pid delivered reply => w.release pid delivered reply
  | .proving release,.prove lock record => w.prove release lock record
  | .idle,.forget proof stat lock => w.forget proof stat lock
  | .forgetting _,.removeSome launch alive socket => (w.removeSome launch alive socket,none)
  | .forgetting lock,.removeAll ok =>
    if ok then { w with dir := none }.goOn (.forgotten lock) else w.return_ .failed
  | .forgotten _,.removeRecord ok =>
    if ok then { w with record := none, released := false }.return_ .forgot else w.return_ .failed
  | _,_ => (w,none)

end Calls

/-- The world after a move, and what the daemon's call returned at it. -/
def step (w : World L) : Move L → World L × Option (Answer L)
  | .opens pid => (w.opens pid,none)
  | .locks pid => (w.locks pid,none)
  | .serves pid ok => (w.serves pid ok,none)
  | .finishes pid => (w.finishes pid,none)
  | .dies pid => (w.dies pid,none)
  | .empty => ({ w with dir := none },none)
  | .reboot =>
    ({ w with boot := w.boot+1, procs := w.procs.map fun _ => .ended, task := .down, released := false },none)
  | .crash => ({ w with task := .down, released := false },none)
  | .daemon =>
    match w.task with
    | .down => ({ w with task := .idle },none)
    | _ => (w,none)
  | m => w.call w.task m

def act (w : World L) (m : Move L) : World L := (w.step m).1

end World

end Vibesys.Supervise
