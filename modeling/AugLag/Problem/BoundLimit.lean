/-! The magnitude from which on a bound counts as absent. -/
namespace AugLag

structure BoundLimit where
  value : Float

namespace BoundLimit

/-- The limit that holds unless another one is set. -/
def standard : BoundLimit := { value := 1e20 }

def set (_ : BoundLimit) (value : Float) : BoundLimit := { value }

def reset (_ : BoundLimit) : BoundLimit := standard

end BoundLimit
end AugLag
