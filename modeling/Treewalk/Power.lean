/-!
# Powers

A power of numbers is that of the core library. Where monoids are in scope there is a second
instance, equal to it but another term. The instance below comes before both, so that a power is
the same term in every module.
-/

namespace Treewalk

@[default_instance 20000]
instance (priority := 2000) instPow {α : Type} [NatPow α] : Pow α Nat := instPowNat

end Treewalk
