/-
  Selection rules — which classes are opened

  A package covers itself and the packages inside it: those whose name goes on
  with a dot. The package without a name is the root and covers every package.
  A class is asked about by its qualified name and its package, and the rules
  are tried in this order:

    1. a class that is excluded by name is not opened;
    2. with subpackages, a class is opened when a chosen package covers its own,
       unless an excluded package at least as deep covers it too;
    3. without subpackages, a class is opened when its package is chosen, and
       excluded packages do not count;
    4. a class that is chosen by name is opened;
    5. no other class is.
-/

namespace Unseal

namespace Package

/-- The first name is the second or is followed in it by a dot. -/
def coversChars : List Char → List Char → Bool
  | [], [] => true
  | [], c :: _ => c = '.'
  | _ :: _, [] => false
  | a :: outer, b :: inner => a = b && coversChars outer inner

/-- The package covers the other: it is the root, the same, or one around it. -/
def covers (outer inner : String) : Bool :=
  outer.isEmpty || coversChars outer.toList inner.toList

/-- The number of parts of a package name; the root has none. -/
def depth (package : String) : Nat :=
  if package.isEmpty then 0 else package.toList.count '.' + 1

end Package

structure Rules where
  classes : List String
  excludedClasses : List String
  packages : List String
  excludedPackages : List String
  includeSubpackages : Bool
  deriving DecidableEq

/-- The rules that choose nothing. -/
def Rules.none : Rules := ⟨[], [], [], [], false⟩

/-- The rule that settled a question. -/
inductive Decision where
  | excludedClass
  /-- The package covers that of the class. -/
  | coveringPackage (package : String)
  | exactPackage (package : String)
  | includedClass
  | noMatch
  deriving DecidableEq

/-- The class is to be opened. -/
def Decision.isIncluded : Decision → Bool
  | .coveringPackage _ | .exactPackage _ | .includedClass => true
  | .excludedClass | .noMatch => false

/-- The least text of a list, in the order of code points. -/
def leastText : List String → Option String
  | [] => none
  | s :: rest =>
    match leastText rest with
    | none => some s
    | some t => if t < s then some t else some s

namespace Rules

/-- An excluded package at least as deep as the chosen one covers the package too. -/
def overrides (r : Rules) (chosen package : String) : Bool :=
  r.excludedPackages.any fun e => Package.depth chosen ≤ Package.depth e && Package.covers e package

/-- The chosen package covers the package and no exclusion takes it back. -/
def survives (r : Rules) (package chosen : String) : Bool :=
  !r.excludedPackages.contains chosen && Package.covers chosen package &&
    !r.overrides chosen package

/-- The first chosen package, in the order of names, that opens the classes of a package. -/
def coveringPackage? (r : Rules) (package : String) : Option String :=
  leastText (r.packages.filter (r.survives package))

/-- The rule that applies to a class of this name in this package. -/
def decide (r : Rules) (name package : String) : Decision :=
  if r.excludedClasses.contains name then .excludedClass
  else
    let byPackage : Option Decision :=
      if r.includeSubpackages then (r.coveringPackage? package).map .coveringPackage
      else if r.packages.contains package then some (.exactPackage package)
      else Option.none
    match byPackage with
    | some d => d
    | Option.none => if r.classes.contains name then .includedClass else .noMatch

/-- Adds rules to rules: lists grow at their end, and subpackages can only be switched on. -/
def merge (r added : Rules) : Rules where
  classes := r.classes ++ added.classes
  excludedClasses := r.excludedClasses ++ added.excludedClasses
  packages := r.packages ++ added.packages
  excludedPackages := r.excludedPackages ++ added.excludedPackages
  includeSubpackages := r.includeSubpackages || added.includeSubpackages

/-- The rules choose no class and no package. -/
def isEmpty (r : Rules) : Bool := r.classes.isEmpty && r.packages.isEmpty

end Rules
end Unseal
