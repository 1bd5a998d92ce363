import LinuxFile.Library.Exec

/-!
# Errors

An error is either raised by the filesystem itself, with an error kind, a Linux errno and a text,
or comes from the host file and carries the host's error kind. The distinction is the program's
own: the first kind is built by `Error::new` and `Error::from_errno`, the second by the conversion
from `std::io::Error`.
-/

namespace LinuxFile

/-- The error kinds the program uses or translates. -/
inductive ErrorKind where
  | permissionDenied | notFound | other | invalidInput | wouldBlock | outOfMemory
  | alreadyExists | notADirectory | isADirectory | fileTooLarge | storageFull | brokenPipe
  | invalidFilename | directoryNotEmpty | invalidData | unsupported | timedOut | writeZero
  | interrupted | unexpectedEof
  deriving DecidableEq, Repr

inductive Error where
  | fs (kind : ErrorKind) (errno : ℕ) (message : String)
  | host (kind : ErrorKind)
  deriving DecidableEq, Repr

namespace Error

def EPERM : ℕ := 1
def ENOENT : ℕ := 2
def EIO : ℕ := 5
def EBADF : ℕ := 9
def EAGAIN : ℕ := 11
def ENOMEM : ℕ := 12
def EACCES : ℕ := 13
def EBUSY : ℕ := 16
def EEXIST : ℕ := 17
def ENOTDIR : ℕ := 20
def EISDIR : ℕ := 21
def EINVAL : ℕ := 22
def EFBIG : ℕ := 27
def EROFS : ℕ := 30
def EPIPE : ℕ := 32
def ERANGE : ℕ := 34
def ENAMETOOLONG : ℕ := 36
def ENOTEMPTY : ℕ := 39
def ELOOP : ℕ := 40
def ENODATA : ℕ := 61
def ENOTSUP : ℕ := 95

/-- The kind and default text of an errno. -/
def errnoInfo : ℕ → ErrorKind × String
  | 1 => (.permissionDenied, "operation not permitted")
  | 2 => (.notFound, "no such file or directory")
  | 5 => (.other, "input/output error")
  | 6 => (.notFound, "no such device or address")
  | 9 => (.invalidInput, "bad file descriptor")
  | 11 => (.wouldBlock, "resource temporarily unavailable")
  | 12 => (.outOfMemory, "out of memory")
  | 13 => (.permissionDenied, "permission denied")
  | 16 => (.other, "device or resource busy")
  | 17 => (.alreadyExists, "file exists")
  | 18 => (.other, "invalid cross-device link")
  | 19 => (.notFound, "no such device")
  | 20 => (.notADirectory, "not a directory")
  | 21 => (.isADirectory, "is a directory")
  | 22 => (.invalidInput, "invalid argument")
  | 23 => (.other, "too many open files in system")
  | 24 => (.other, "too many open files")
  | 25 => (.other, "inappropriate ioctl")
  | 27 => (.fileTooLarge, "file too large")
  | 28 => (.storageFull, "no space left on device")
  | 29 => (.invalidInput, "illegal seek")
  | 30 => (.other, "read-only file system")
  | 31 => (.other, "too many links")
  | 32 => (.brokenPipe, "broken pipe")
  | 36 => (.invalidFilename, "file name too long")
  | 39 => (.directoryNotEmpty, "directory not empty")
  | 40 => (.invalidData, "too many levels of symbolic links")
  | 61 => (.notFound, "no data available")
  | 75 => (.invalidData, "value too large")
  | 95 => (.unsupported, "operation not supported")
  | _ => (.other, "filesystem error")

def fromErrno (errno : ℕ) : Error := .fs (errnoInfo errno).1 errno (errnoInfo errno).2

/-- The errno given to an error of the host file. -/
def kindToErrno : ErrorKind → ℕ
  | .notFound => ENOENT
  | .permissionDenied => EACCES
  | .alreadyExists => EEXIST
  | .wouldBlock => EAGAIN
  | .invalidInput => EINVAL
  | .invalidData => EINVAL
  | .timedOut => EAGAIN
  | .writeZero => EIO
  | .interrupted => EAGAIN
  | .unsupported => ENOTSUP
  | .unexpectedEof => EIO
  | .outOfMemory => ENOMEM
  | .brokenPipe => EPIPE
  | _ => EIO

def errno : Error → ℕ
  | .fs _ errno _ => errno
  | .host kind => kindToErrno kind

/-- An error that went through `std::io::Error` and back: its kind stays, its number is found again from the kind. -/
def viaIo : Error → Error
  | .fs kind errno message => .fs kind (kindToErrno kind) (message ++ " (errno " ++ toString errno ++ ")")
  | .host kind => .host kind

def enoent (message : String) : Error := .fs .notFound ENOENT message
def eexist (message : String) : Error := .fs .alreadyExists EEXIST message
def einval (message : String) : Error := .fs .invalidInput EINVAL message
def eio (message : String) : Error := .fs .other EIO message
def enotdir (message : String) : Error := .fs .notADirectory ENOTDIR message
def eisdir (message : String) : Error := .fs .isADirectory EISDIR message
def eacces (message : String) : Error := .fs .permissionDenied EACCES message
def eperm (message : String) : Error := .fs .permissionDenied EPERM message
def ebadf : Error := fromErrno EBADF
def eloop : Error := fromErrno ELOOP
def enametoolong : Error := fromErrno ENAMETOOLONG
def enotempty : Error := fromErrno ENOTEMPTY

/-- The error was raised by the host file, not by the filesystem. -/
def IsHost : Error → Prop
  | .host _ => True
  | .fs .. => False

instance (e : Error) : Decidable e.IsHost := by
  cases e <;> unfold IsHost <;> infer_instance

end Error

end LinuxFile
