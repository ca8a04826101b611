/-!
# Why a file operation fails

The causes are named for what stood in the way; `message` is how each is told to a person. The
numbers belong to the wording: clients match on them.
-/

namespace LineStore

/-- What stood in the way of a file operation. -/
inductive FileError
  /-- Nothing has this name. -/
  | absent
  /-- Something has this name already. -/
  | occupied
  /-- A step of the path leads through something that is not a directory. -/
  | notDirectory
  /-- A directory stands where a file or a link is needed. -/
  | isDirectory
  /-- A directory may not have a second name. -/
  | notPermitted
  /-- The last step of a path is no name that could be moved. -/
  | busy
  | nameTooLong
  | tooManyLinks
  /-- A path holds a zero byte. -/
  | zeroInPath
  /-- The bytes of a file are not text. -/
  | notText
  deriving DecidableEq, Repr

namespace FileError

/-- The wording shown to clients. -/
def message : FileError → String
  | absent => "No such file or directory (os error 2)"
  | occupied => "File exists (os error 17)"
  | notDirectory => "Not a directory (os error 20)"
  | isDirectory => "Is a directory (os error 21)"
  | notPermitted => "Operation not permitted (os error 1)"
  | busy => "Device or resource busy (os error 16)"
  | nameTooLong => "File name too long (os error 36)"
  | tooManyLinks => "Too many levels of symbolic links (os error 40)"
  | zeroInPath => "file name contained an unexpected NUL byte"
  | notText => "stream did not contain valid UTF-8"

/-- Each cause has its own wording. -/
theorem message_injective {a b : FileError} (h : a.message = b.message) : a = b := by
  revert h
  cases a <;> cases b <;> decide

end FileError
end LineStore
