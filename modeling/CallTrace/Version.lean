/-!
# Version

The version number that the library reports of itself.
-/

namespace CallTrace

def version : String := "0.1.0"

end CallTrace
