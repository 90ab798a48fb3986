/-!
The error codes of `libk/err.h`.
-/
namespace DordOs

inductive Err
  | ok
  | unknHrdw
  | notFound
  | notAvail
  | noMemory
  | fmtInval
  | unknType
  deriving DecidableEq

end DordOs
