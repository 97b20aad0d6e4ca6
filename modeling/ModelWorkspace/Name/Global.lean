import ModelWorkspace.Name.Fresh

/-!
# Global identifiers

An element is known inside its file by the names of its containers and its own,
joined by dots, and in the whole workspace by that name behind the identifier of
its package.  A name equal to the package's identifier is not repeated.

Elements that declare no identifier are named by their place, `feature@index`;
`@` is no character of an identifier.
-/

namespace ModelWorkspace
namespace Name

/-- The global identifier of a name in a package; outside packages, the name. -/
def globalId (packageId qualified : String) : String :=
  if packageId = "" then qualified
  else if qualified = packageId then packageId
  else packageId ++ "." ++ qualified

/-- A name for a root whose global identifier is not taken, and that identifier. -/
def freshGlobal (taken : List String) (packageId base : String) : String × String :=
  let name := freshBy (globalId packageId) taken base
  (name, globalId packageId name)

/-- The identifier of the package that a manifest names: every character but ASCII
letters, digits and `_` becomes `_`. -/
def packageId (manifestName : String) : String :=
  String.ofList (manifestName.toList.map fun c =>
    if c.isAlphanum || c == '_' then c else '_')

/-- The name of the `index`-th element of a feature, if it declares none. -/
def synthetic (feature : String) (index : Nat) : String :=
  feature ++ "@" ++ toString index

/-- Whether a name could be a synthetic one. -/
def isSynthetic (name : String) : Bool :=
  name.toList.contains '@'

/-- The name of an element below a container. -/
def nested (container own : String) : String :=
  container ++ "." ++ own

end Name
end ModelWorkspace
