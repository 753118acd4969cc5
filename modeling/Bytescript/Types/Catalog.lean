import Bytescript.Types.Basic

/-!
# Modules and visible types

A catalog holds at most one module of a name, in no particular order; the modules whose types are
visible without an import are sorted by their names. A type scope holds the types that a program can
name; the first type of a name stays.
-/
namespace Bytescript

structure Module where
  name : String
  automatic : Bool
  types : List Definition

namespace Module

def find? (m : Module) (name : String) : Option Definition :=
  m.types.find? fun d => d.name == name

def coreName : String := "core"

def textName : String := "str"

def core : Module where
  name := coreName
  automatic := true
  types := Primitive.all.map (Definition.ofPrimitive coreName) ++
    [Definition.ofHandle coreName textName]

end Module

/-- The types of literals. They come from the core module whether or not a program imports it. -/
structure CoreTypes where
  primitive : Primitive → Ty
  text : Ty

namespace CoreTypes

def bool (c : CoreTypes) : Ty := c.primitive .bool

def ofModule? (m : Module) : Option CoreTypes :=
  if h : ∀ p ∈ Primitive.all, (m.find? p.name).isSome then
    (m.find? Module.textName).map fun text =>
      { primitive := fun p => .of ((m.find? p.name).get (h p p.mem_all))
        text := .of text }
  else none

end CoreTypes

structure Catalog where
  modules : List Module
  distinct : (modules.map Module.name).Nodup

namespace Catalog

def empty : Catalog := ⟨[], .nil⟩

/-- Adds a module, in place of one of the same name. -/
def register (c : Catalog) (m : Module) : Catalog where
  modules := c.modules.filter (fun n => n.name != m.name) ++ [m]
  distinct := by
    rw [List.map_append, List.nodup_append]
    refine ⟨c.distinct.sublist (List.filter_sublist.map _), by simp, fun a ha b hb => ?_⟩
    obtain ⟨n, hn, rfl⟩ := List.mem_map.mp ha
    obtain ⟨m', hm, rfl⟩ := List.mem_map.mp hb
    rw [List.mem_singleton.mp hm]
    simpa using (List.mem_filter.mp hn).2

def standard : Catalog := empty.register Module.core

def find? (c : Catalog) (name : String) : Option Module :=
  c.modules.find? fun m => m.name == name

/-- Inserts a module in front of the first whose name is not less than its own. -/
def place (m : Module) : List Module → List Module
  | [] => [m]
  | n :: rest => if n.name < m.name then n :: place m rest else m :: n :: rest

def sort (ms : List Module) : List Module := ms.foldr place []

/-- The modules whose types are visible without an import, sorted by their names. -/
def automatic (c : Catalog) : List Module :=
  sort (c.modules.filter (·.automatic))

def coreTypes? (c : Catalog) : Option CoreTypes :=
  (c.find? Module.coreName).bind CoreTypes.ofModule?

end Catalog

structure TypeScope where
  types : List Definition

namespace TypeScope

def empty : TypeScope := ⟨[]⟩

def find? (s : TypeScope) (name : String) : Option Definition :=
  s.types.find? fun d => d.name == name

def contains (s : TypeScope) (name : String) : Bool :=
  (s.find? name).isSome

/-- Makes a type visible unless its name is taken. -/
def add (s : TypeScope) (d : Definition) : TypeScope :=
  if s.contains d.name then s else ⟨s.types ++ [d]⟩

def addAll (s : TypeScope) (ds : List Definition) : TypeScope :=
  ds.foldl add s

/-- The names in a list that are already taken when their types are added in order. -/
def clashes (s : TypeScope) : List Definition → List String
  | [] => []
  | d :: ds => (if s.contains d.name then [d.name] else []) ++ (s.add d).clashes ds

end TypeScope

end Bytescript
