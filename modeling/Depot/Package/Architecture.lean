import Depot.Failure

/-!
# Architectures

The processor architectures that a package may be built for. The empty text means that none is
given.
-/

namespace Depot.Package

/-- Every architecture that a source may hand out. -/
def architectures : List String :=
  ["", "aarch64", "armhf", "armv7", "mips", "mipsel", "mipsn32", "mipsn32el", "mipsn32r6",
    "mipsn32r6el", "mipsr6", "mipsr6el", "mips64", "mips64el", "mips64r6", "mips64r6el", "powerpc",
    "ppc64le", "ppc64el", "riscv64", "s390x", "i386", "i586", "i686", "x32", "x86_64", "any", "src",
    "noarch", "all"]

/-- Refuses an architecture that is not in the table. -/
def checkArchitecture (arch : String) : Outcome Unit :=
  if architectures.contains arch then .ok () else .error (.invalidArchitecture arch)

end Depot.Package
