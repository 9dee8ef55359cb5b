import TraceMath.Binary64.Arithmetic
import TraceMath.Fault

/-!
# Builds

What differs between two builds of the helpers: which functions of the math library are usable,
and the library itself. Everything else is a function of the build.

* `log2` and `exp2` come from the library if the build has the capability, else from `log` and
  `exp` by a constant factor.
-/

namespace TraceMath

/-- The functions that are taken from a math library. A square root and the roundings to an
integer are exact and need none. -/
structure MathLibrary where
  exp : Binary64 → Binary64
  exp2 : Binary64 → Binary64
  log : Binary64 → Binary64
  log2 : Binary64 → Binary64
  log10 : Binary64 → Binary64
  sin : Binary64 → Binary64
  cos : Binary64 → Binary64
  tan : Binary64 → Binary64
  sinh : Binary64 → Binary64
  cosh : Binary64 → Binary64
  tanh : Binary64 → Binary64

/-- What the target provides, fixed when the helpers are built. -/
structure Capabilities where
  /-- The library's `log2` is usable. -/
  nativeLog2 : Bool
  /-- The library's `exp2` is usable. -/
  nativeExp2 : Bool
  /-- Generated code calls the hyperbolic functions through exported wrappers. -/
  hyperbolicWrappers : Bool
deriving DecidableEq, Repr

/-- What the helpers are built for. -/
structure Target where
  /-- The library of the target has no usable `log2`. -/
  android : Bool
  /-- The target is an x86 of 32 or 64 bits. -/
  x86 : Bool
deriving DecidableEq, Repr

/-- What is chosen when the helpers are built. -/
structure Features where
  /-- Use `log` and a constant factor for `log2`. -/
  fallbackLog2 : Bool
  /-- Use `exp` and a constant factor for `exp2`. -/
  fallbackExp2 : Bool
deriving DecidableEq, Repr

namespace Capabilities

/-- The capabilities of a build. -/
def select (t : Target) (f : Features) : Capabilities where
  nativeLog2 := !(t.android || f.fallbackLog2)
  nativeExp2 := !f.fallbackExp2
  hyperbolicWrappers := t.x86

/-- The record that is logged when a backend sets up its linkage. -/
def logRecord (c : Capabilities) : LogRecord where
  level := .debug
  target := "tracejit_vmmath::platform"
  text := s!"vmmath platform: native_log2={c.nativeLog2}, native_exp2={c.nativeExp2}, " ++
    s!"hyperbolic_wrappers={c.hyperbolicWrappers}"

end Capabilities

structure Build where
  capabilities : Capabilities
  library : MathLibrary

/-- The build for a target with the given features. -/
def Build.ofFeatures (t : Target) (lib : MathLibrary) (f : Features) : Build := ⟨.select t f, lib⟩

/-! ## Logarithm and power to base two -/

/-- `1 / ln 2`, rounded. -/
def invLn2 : Binary64 := ⟨0x3ff71547652b82fe⟩

/-- `ln 2`, rounded. -/
def ln2 : Binary64 := ⟨0x3fe62e42fefa39ef⟩

/-- The logarithm to base two by way of the natural one. -/
def MathLibrary.log2ByLog (lib : MathLibrary) (x : Binary64) : Binary64 := lib.log x * invLn2

/-- The power of two by way of the exponential function. -/
def MathLibrary.exp2ByExp (lib : MathLibrary) (x : Binary64) : Binary64 := lib.exp (x * ln2)

def Build.log2 (b : Build) (x : Binary64) : Binary64 :=
  if b.capabilities.nativeLog2 then b.library.log2 x else b.library.log2ByLog x

def Build.exp2 (b : Build) (x : Binary64) : Binary64 :=
  if b.capabilities.nativeExp2 then b.library.exp2 x else b.library.exp2ByExp x

end TraceMath
