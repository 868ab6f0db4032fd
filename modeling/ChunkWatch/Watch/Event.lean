import ChunkWatch.Path

namespace ChunkWatch.Watch

inductive ChangeKind : Type
  | create : ChangeKind
  | write : ChangeKind
  | remove : ChangeKind
  | rename : ChangeKind
  | metadata : ChangeKind
  | other : ChangeKind
  deriving DecidableEq

def ChangeKind.ofName? : String → Option ChangeKind
  | "create" => some create
  | "write" => some write
  | "remove" => some remove
  | "rename" => some rename
  | "metadata" => some metadata
  | "other" => some other
  | _ => none

def ChangeKind.isContent : ChangeKind → Bool
  | create | write | remove | rename => true
  | metadata | other => false

def ChangeKind.isArrival : ChangeKind → Bool
  | create | rename => true
  | _ => false

inductive Modification : Type
  | any : Modification
  | data : Modification
  | metadata : Modification
  | name : Modification
  | other : Modification

inductive Notification : Type
  | any : Notification
  | access : Notification
  | create : Notification
  | modify : Modification → Notification
  | remove : Notification
  | other : Notification

def Notification.kind : Notification → ChangeKind
  | create => .create
  | remove => .remove
  | modify .name => .rename
  | modify .metadata => .metadata
  | modify _ => .write
  | access | any | other => .other

inductive Event : Type
  | change : Path → ChangeKind → Event
  | error : String → Event

def Event.ofLine (line : String) : Event :=
  let kind := String.ofList (line.toList.takeWhile (· != ' '))
  let rest := String.ofList ((line.toList.dropWhile (· != ' ')).drop 1)
  match ChangeKind.ofName? kind with
  | some kind => change (.ofString rest) kind
  | none => error line

end ChunkWatch.Watch
