import CacheAside.Binary64

namespace CacheAside

inductive Number where
  | integer (value : Int)
  | double (value : Binary64)
  deriving DecidableEq, Repr, Inhabited

namespace Number

/-- Integers are unsigned 64-bit words or negative signed ones; all else is a double. -/
def Fits (value : Int) : Prop := -0x8000_0000_0000_0000 ≤ value ∧ value < 0x1_0000_0000_0000_0000

instance (value : Int) : Decidable (Fits value) := inferInstanceAs (Decidable (_ ∧ _))

/-- Integers are equal as integers, doubles as numbers, and the two kinds never meet. -/
def same : Number → Number → Bool
  | integer a, integer b => a == b
  | double a, double b => a.same b
  | _, _ => false

end Number

inductive Json where
  | null
  | bool (value : Bool)
  | number (value : Number)
  | string (value : String)
  | array (items : List Json)
  | object (fields : List (String × Json))
  deriving Repr, Inhabited

namespace Json

mutual

def same : Json → Json → Bool
  | null, null => true
  | bool a, bool b => a == b
  | number a, number b => a.same b
  | string a, string b => a == b
  | array a, array b => sameItems a b
  | object a, object b => sameFields a b
  | _, _ => false
termination_by structural value => value

def sameItems : List Json → List Json → Bool
  | [], [] => true
  | a :: as, b :: bs => same a b && sameItems as bs
  | _, _ => false
termination_by structural items => items

def sameFields : List (String × Json) → List (String × Json) → Bool
  | [], [] => true
  | (name, a) :: as, (name', b) :: bs => name == name' && same a b && sameFields as bs
  | _, _ => false
termination_by structural fields => fields

end

instance : BEq Json := ⟨same⟩

mutual

def depth : Json → Nat
  | array items => depthItems items + 1
  | object fields => depthFields fields + 1
  | _ => 0
termination_by structural value => value

def depthItems : List Json → Nat
  | [] => 0
  | v :: vs => max (depth v) (depthItems vs)
termination_by structural items => items

def depthFields : List (String × Json) → Nat
  | [] => 0
  | (_, v) :: vs => max (depth v) (depthFields vs)
termination_by structural fields => fields

end

def nat (n : Nat) : Json := number (.integer n)

end Json

end CacheAside
