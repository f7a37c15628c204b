import Mathlib.Logic.Basic

/-!
# Error numbers

The error numbers of `errno.h` that the modelled functions return, negated,
as `int` results.
-/

namespace LambdaOs

def ENOENT : Int := 2
def ENOEXEC : Int := 8
def EBADF : Int := 9
def ENOMEM : Int := 12
def ENOTDIR : Int := 20
def EINVAL : Int := 22
def ENFILE : Int := 23
def EROFS : Int := 30
def ETIMEDOUT : Int := 60
def EUNSPEC : Int := 512
def ENODATA : Int := 513

end LambdaOs
