import TraceMath.Build
import TraceMath.Elementary.Exponential
import TraceMath.Elementary.Trigonometric

/-!
# The math library and the builds over it

Every function of the library is evaluated by enclosures and rounded once.
-/

namespace TraceMath

/-- The library whose functions are the exact ones, rounded to nearest. -/
def MathLibrary.correctlyRounded : MathLibrary where
  exp := Binary64.exp
  exp2 := Binary64.exp2
  log := Binary64.log
  log2 := Binary64.log2
  log10 := Binary64.log10
  sin := Binary64.sin
  cos := Binary64.cos
  tan := Binary64.tan
  sinh := Binary64.sinh
  cosh := Binary64.cosh
  tanh := Binary64.tanh

namespace Build

/-- An x86 that is no Android. -/
def x86 : Target := ⟨false, true⟩

/-- The build with every function of the library. -/
def native : Build := ofFeatures x86 .correctlyRounded ⟨false, false⟩

/-- The build that takes neither `log2` nor `exp2` from the library. -/
def fallback : Build := ofFeatures x86 .correctlyRounded ⟨true, true⟩

end Build

end TraceMath
