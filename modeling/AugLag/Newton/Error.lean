import AugLag.Factor.Basic

/-! Failures of the factorization of a Newton system. A larger proximal weight may cure them. -/
namespace AugLag

inductive NewtonError
  | factor (cause : FactorError)
  | notPositiveDefinite
deriving DecidableEq, Repr

def NewtonError.message : NewtonError → String
  | .factor cause => s!"LDL factorization failed: {cause.message}"
  | .notPositiveDefinite => "Newton system matrix is not positive definite"

end AugLag
