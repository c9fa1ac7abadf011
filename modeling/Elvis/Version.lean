import Elvis.Bytes

/-!
How a generator names itself and its version.
-/

namespace Elvis

def versionStamp (generator : Bytes) : Bytes := generator ++ " (srelvis) 0.3.0"

/-- The comment line of a generated file. -/
def generatedBy (generator : Bytes) : Bytes := "# Generated by " ++ versionStamp generator

end Elvis
