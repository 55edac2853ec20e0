import CacheAside.Program
import CacheAside.Store.Entries

namespace CacheAside

namespace Entries

def serve (now : Nat) (entries : Entries) : (call : StoreCall) → call.Answer × Entries
  | .get key => (entries.find? now key, entries)
  | .set key text lifetime => ((), entries.set now key text lifetime)
  | .erase key => ((), entries.erase key)
  | .erasePrefix start => (entries.countPrefix now start, entries.erasePrefix start)

end Entries

end CacheAside
