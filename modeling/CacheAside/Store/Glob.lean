namespace CacheAside

namespace Glob

def isMeta (c : Char) : Bool := c = '*' || c = '?' || c = '[' || c = ']' || c = '\\'

def escape : List Char → List Char
  | [] => []
  | c :: cs => if isMeta c then '\\' :: c :: escape cs else c :: escape cs

def startingWith (start : String) : String := String.ofList (escape start.toList ++ ['*'])

end Glob

end CacheAside
