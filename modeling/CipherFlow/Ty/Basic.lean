import CipherFlow.Ty.Shape

/-!
# Types of values

A value of a routine is a clear integer, an encrypted integer, or a tensor of such. Tensors may
nest, because the text and the interchange format allow it.
-/

set_option autoImplicit false

namespace CipherFlow

inductive Ty
  | clear (width : UInt32)
  | encrypted (width : UInt32)
  | tensor (shape : Shape) (element : Ty)
  deriving DecidableEq, Repr

namespace Ty

def isClear : Ty → Bool
  | clear _ => true
  | _ => false

def isEncrypted : Ty → Bool
  | encrypted _ => true
  | _ => false

/-- The bit width of an integer, or of the integers in a tensor. -/
def width : Ty → UInt32
  | clear w => w
  | encrypted w => w
  | tensor _ element => element.width

def shape? : Ty → Option Shape
  | tensor shape _ => some shape
  | _ => none

def element? : Ty → Option Ty
  | tensor _ element => some element
  | _ => none

/-- Whether the type is that of a tensor with one dimension and elements that satisfy `p`. -/
def isVectorWith (p : Ty → Bool) : Ty → Bool
  | tensor [_] element => p element
  | _ => false

end Ty

end CipherFlow
