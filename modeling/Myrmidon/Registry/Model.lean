import Mathlib.Data.List.AList
import Myrmidon.Slab.Allocator

namespace Myrmidon

structure NameRegistry where
  names : AList fun _ : String => Pid

namespace NameRegistry

def new : NameRegistry := ⟨∅⟩

/-- A name that is already there gets the new pid. -/
def register (registry : NameRegistry) (name : String) (pid : Pid) : NameRegistry := ⟨registry.names.insert name pid⟩

def resolve (registry : NameRegistry) (name : String) : Option Pid := registry.names.lookup name

def unregister (registry : NameRegistry) (name : String) : NameRegistry := ⟨registry.names.erase name⟩

end NameRegistry

end Myrmidon
