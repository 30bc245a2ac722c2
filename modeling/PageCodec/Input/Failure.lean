/-!
# Failures of an input

Reading an input can fail for reasons that have nothing to do with pages.  A failure has a kind and
a message, and a number if it comes from the operating system.  One kind is harmless: an interrupted
read is simply tried again.
-/

namespace PageCodec

/-- What kind of failure an input met. -/
inductive FailureKind where
  | notFound | permissionDenied | connectionRefused | connectionReset | hostUnreachable
  | networkUnreachable | connectionAborted | notConnected | addrInUse | addrNotAvailable
  | networkDown | brokenPipe | alreadyExists | wouldBlock | notADirectory | isADirectory
  | directoryNotEmpty | readOnlyFilesystem | filesystemLoop | staleNetworkFileHandle
  | invalidInput | invalidData | timedOut | writeZero | storageFull | notSeekable | quotaExceeded
  | fileTooLarge | resourceBusy | executableFileBusy | deadlock | crossesDevices | tooManyLinks
  | invalidFilename | argumentListTooLong | interrupted | unsupported | unexpectedEof
  | outOfMemory | inProgress | other | uncategorized
  deriving DecidableEq, Repr

namespace FailureKind

/-- The name of a kind. -/
def name : FailureKind → String
  | notFound => "NotFound"
  | permissionDenied => "PermissionDenied"
  | connectionRefused => "ConnectionRefused"
  | connectionReset => "ConnectionReset"
  | hostUnreachable => "HostUnreachable"
  | networkUnreachable => "NetworkUnreachable"
  | connectionAborted => "ConnectionAborted"
  | notConnected => "NotConnected"
  | addrInUse => "AddrInUse"
  | addrNotAvailable => "AddrNotAvailable"
  | networkDown => "NetworkDown"
  | brokenPipe => "BrokenPipe"
  | alreadyExists => "AlreadyExists"
  | wouldBlock => "WouldBlock"
  | notADirectory => "NotADirectory"
  | isADirectory => "IsADirectory"
  | directoryNotEmpty => "DirectoryNotEmpty"
  | readOnlyFilesystem => "ReadOnlyFilesystem"
  | filesystemLoop => "FilesystemLoop"
  | staleNetworkFileHandle => "StaleNetworkFileHandle"
  | invalidInput => "InvalidInput"
  | invalidData => "InvalidData"
  | timedOut => "TimedOut"
  | writeZero => "WriteZero"
  | storageFull => "StorageFull"
  | notSeekable => "NotSeekable"
  | quotaExceeded => "QuotaExceeded"
  | fileTooLarge => "FileTooLarge"
  | resourceBusy => "ResourceBusy"
  | executableFileBusy => "ExecutableFileBusy"
  | deadlock => "Deadlock"
  | crossesDevices => "CrossesDevices"
  | tooManyLinks => "TooManyLinks"
  | invalidFilename => "InvalidFilename"
  | argumentListTooLong => "ArgumentListTooLong"
  | interrupted => "Interrupted"
  | unsupported => "Unsupported"
  | unexpectedEof => "UnexpectedEof"
  | outOfMemory => "OutOfMemory"
  | inProgress => "InProgress"
  | other => "Other"
  | uncategorized => "Uncategorized"

end FailureKind

/-- A failure to open or read an input. -/
structure InputFailure where
  /-- What kind of failure it is. -/
  kind : FailureKind
  /-- What is said about it. -/
  message : String
  /-- Its number, if the operating system gave one. -/
  code : Option Nat
  deriving DecidableEq, Repr

namespace InputFailure

/-- There is no such file. -/
def notFound : InputFailure := ⟨.notFound, "No such file or directory", some 2⟩

/-- A file was used as if it were a directory. -/
def notADirectory : InputFailure := ⟨.notADirectory, "Not a directory", some 20⟩

/-- A directory was read as if it were a file. -/
def isADirectory : InputFailure := ⟨.isADirectory, "Is a directory", some 21⟩

/-- A path, or a name in it, is longer than can be. -/
def nameTooLong : InputFailure := ⟨.invalidFilename, "File name too long", some 36⟩

/-- The failure spelled out field by field. -/
def text (e : InputFailure) : String :=
  match e.code with
  | some code => s!"Os \x7b code: {code}, kind: {e.kind.name}, message: {e.message.quote} \x7d"
  | none => s!"Custom \x7b kind: {e.kind.name}, error: {e.message.quote} \x7d"

end InputFailure

end PageCodec
