import Myrmidon.Registry.Listing
import Myrmidon.Supervisor.Model

namespace Myrmidon

/-- What `watch` registers. -/
def ChildSpec.watching (pid : Pid) : ChildSpec := ⟨.same pid, .restartOne⟩

def Supervisor.watchAll (s : Supervisor) (pids : List Pid) : Supervisor := pids.foldl watch s

theorem Supervisor.lookup_watchAll (s : Supervisor) (pids : List Pid) (pid : Pid) :
    (s.watchAll pids).children.lookup pid =
      if pid ∈ pids then some (.watching pid) else s.children.lookup pid := by
  induction pids generalizing s with
  | nil => rfl
  | cons first pids ih =>
    have rest : (s.watchAll (first :: pids)).children.lookup pid =
        if pid ∈ pids then some (.watching pid) else (s.watch first).children.lookup pid := ih (s.watch first)
    by_cases same : pid = first
    · subst same
      have watched : (s.watch pid).children.lookup pid = some (.watching pid) := AList.lookup_insert s.children
      rw [rest, watched, ite_self, if_pos List.mem_cons_self]
    · have kept : (s.watch first).children.lookup pid = s.children.lookup pid := AList.lookup_insert_ne same
      simp only [rest, kept, List.mem_cons, same, false_or]

namespace NameRegistry

/-- `watch_path`: the direct children, each watched. -/
def watchPath (registry : NameRegistry) (order : List String) (path : String) (s : Supervisor) : Option Supervisor :=
  (registry.listDirectChildren order path).map fun listed => listed.foldl (fun s entry => s.watch entry.2) s

/-- The last slash of the key follows another one. -/
def EmptyParent (key : List Char) : Prop := ∃ front tail, key = front ++ '/' :: '/' :: tail ∧ '/' ∉ tail

theorem exists_last_slash {key : List Char} (slash : '/' ∈ key) :
    ∃ front tail, key = front ++ '/' :: tail ∧ '/' ∉ tail := by
  induction key with
  | nil => cases slash
  | cons char rest ih =>
    by_cases later : '/' ∈ rest
    · obtain ⟨front, tail, rfl, last⟩ := ih later
      exact ⟨char :: front, tail, rfl, last⟩
    · have first : char = '/' := by
        rcases List.mem_cons.mp slash with same | member
        · exact same.symm
        · exact absurd member later
      exact ⟨[], rest, by rw [first]; rfl, later⟩

/-- There is one last slash. -/
theorem last_slash_unique {front front' tail tail' : List Char} (same : front ++ '/' :: tail = front' ++ '/' :: tail')
    (last : '/' ∉ tail) (last' : '/' ∉ tail') : front = front' ∧ tail = tail' := by
  induction front generalizing front' with
  | nil =>
    cases front' with
    | nil => exact ⟨rfl, List.cons.inj same |>.2⟩
    | cons char front' =>
      have inside : tail = front' ++ '/' :: tail' := (List.cons.inj same).2
      exact absurd (by simp [inside]) last
  | cons char front ih =>
    cases front' with
    | nil =>
      have inside : front ++ '/' :: tail = tail' := (List.cons.inj same).2
      exact absurd (by simp [← inside]) last'
    | cons char' front' =>
      obtain ⟨rfl, rest⟩ := List.cons.inj same
      obtain ⟨rfl, rfl⟩ := ih rest
      exact ⟨rfl, rfl⟩

/-- At the root are the keys without a slash but at their beginning. -/
theorem direct_root_cases (key : List Char) :
    direct [] key = true ↔ '/' ∉ key ∨ ∃ tail, key = '/' :: tail ∧ '/' ∉ tail := by
  rw [direct_root_iff, dropSlash]
  cases key with
  | nil => simp
  | cons char rest =>
    by_cases slash : char = '/'
    · simp [slash]
    · simp [slash, Ne.symm slash]

theorem trimEndSlashes_last {chars : List Char} (nonempty : trimEndSlashes chars ≠ []) :
    ∀ front, trimEndSlashes chars ≠ front ++ ['/'] := by
  intro front same
  have last := List.rdropWhile_last_not (· = '/') chars nonempty
  apply last
  have ends : (trimEndSlashes chars).getLast nonempty = '/' := by
    simp [same]
  exact decide_eq_true ends

theorem trimEndSlashes_self {chars : List Char} (last : ∀ front, chars ≠ front ++ ['/']) :
    trimEndSlashes chars = chars := by
  rw [trimEndSlashes, List.rdropWhile_eq_self_iff]
  intro nonempty slash
  apply last chars.dropLast
  have ends : chars.getLast nonempty = '/' := of_decide_eq_true slash
  rw [← ends, List.dropLast_append_getLast]

def Trimmed (chars : List Char) : Prop := ∀ front, chars ≠ front ++ ['/']

theorem direct_norm_unique {norm norm' key : List Char} (listed : direct norm key = true)
    (also : direct norm' key = true) : norm = norm' := by
  -- A norm that is not the root is what stands before the last slash.
  have rooted : ∀ {norm : List Char}, norm ≠ [] → direct norm key = true → direct [] key = true → False := by
    intro norm nonempty listed root
    obtain ⟨tail, split, last⟩ := (direct_iff nonempty).mp listed
    rcases (direct_root_cases key).mp root with none | ⟨tail', split', last'⟩
    · exact none (by simp [split])
    · have same : norm ++ '/' :: tail = [] ++ '/' :: tail' := split.symm.trans split'
      exact nonempty (last_slash_unique same last last').1
  by_cases root : norm = []
  · by_cases root' : norm' = []
    · rw [root, root']
    · exact (rooted root' also (root ▸ listed)).elim
  · by_cases root' : norm' = []
    · exact (rooted root listed (root' ▸ also)).elim
    · obtain ⟨tail, split, last⟩ := (direct_iff root).mp listed
      obtain ⟨tail', split', last'⟩ := (direct_iff root').mp also
      exact (last_slash_unique (split.symm.trans split') last last').1

theorem not_direct_of_emptyParent {norm key : List Char} (trimmed : norm ≠ [] → Trimmed norm)
    (empty : EmptyParent key) : direct norm key ≠ true := by
  intro listed
  obtain ⟨front, tail, split, last⟩ := empty
  have grouped : key = (front ++ ['/']) ++ '/' :: tail := by simp [split]
  by_cases root : norm = []
  · rw [root, direct_root_cases] at listed
    rcases listed with none | ⟨tail', split', last'⟩
    · exact none (by simp [split])
    · have same : (front ++ ['/']) ++ '/' :: tail = [] ++ '/' :: tail' := grouped.symm.trans split'
      have nothing := (last_slash_unique same last last').1
      simp at nothing
  · obtain ⟨tail', split', last'⟩ := (direct_iff root).mp listed
    have parent := (last_slash_unique (grouped.symm.trans split') last last').1
    exact trimmed root front parent.symm

theorem exists_direct_norm {key : List Char} (plain : ¬ EmptyParent key) :
    ∃ norm, Trimmed norm ∧ direct norm key = true := by
  have root : Trimmed [] := fun front same => by simp at same
  by_cases slash : '/' ∈ key
  · obtain ⟨front, tail, split, last⟩ := exists_last_slash slash
    by_cases first : front = []
    · refine ⟨[], root, (direct_root_cases key).mpr (.inr ⟨tail, ?_, last⟩)⟩
      rw [split, first, List.nil_append]
    · refine ⟨front, fun shorter same => plain ⟨shorter, tail, ?_, last⟩, (direct_iff first).mpr ⟨tail, split, last⟩⟩
      rw [split, same, List.append_assoc]
      rfl
  · exact ⟨[], root, (direct_root_cases key).mpr (.inl slash)⟩

theorem watchPath_eq {registry : NameRegistry} {order : List String} {path : String} {listed : List (String × Pid)}
    (direct : registry.listDirectChildren order path = some listed) (s : Supervisor) :
    registry.watchPath order path s = some (s.watchAll (listed.map Prod.snd)) := by
  rw [watchPath, direct, Supervisor.watchAll, List.foldl_map]
  rfl

/-- A key is a direct child of some path exactly if its last slash does not
    follow another one; `watch_path` of that path then supervises it. The norm
    of the path is determined by the key. -/
theorem direct_parent_iff (registry : NameRegistry) {order : List String} (whole : order.Perm registry.names.keys)
    {key : String} {pid : Pid} (registered : registry.resolve key = some pid) :
    ((∃ path listed, registry.listDirectChildren order path = some listed ∧ (key, pid) ∈ listed ∧
        ∀ s, ∃ later, registry.watchPath order path s = some later ∧ pid ∈ later.children) ↔
      ¬ EmptyParent key.toList) ∧
    ∀ path other listed listed', registry.listDirectChildren order path = some listed →
      registry.listDirectChildren order other = some listed' → (key, pid) ∈ listed → (key, pid) ∈ listed' →
      trimEndSlashes path.toList = trimEndSlashes other.toList := by
  refine ⟨⟨?_, ?_⟩, ?_⟩
  · rintro ⟨path, listed, direct, member, -⟩ empty
    have kept := ((mem_direct whole key pid direct).mp member).2
    exact not_direct_of_emptyParent trimEndSlashes_last empty kept
  · intro plain
    obtain ⟨norm, trimmed, kept⟩ := exists_direct_norm plain
    have same : trimEndSlashes (String.ofList norm).toList = norm := by
      rw [String.toList_ofList, trimEndSlashes_self trimmed]
    have direct := listDirectChildren_eq registry order (String.ofList norm)
    have member := (mem_direct whole key pid direct).mpr ⟨registered, by rw [same]; exact kept⟩
    refine ⟨String.ofList norm, _, direct, member, fun s => ⟨_, watchPath_eq direct s, ?_⟩⟩
    rw [← AList.lookup_isSome, Supervisor.lookup_watchAll, if_pos (List.mem_map_of_mem member)]
    rfl
  · intro path other listed listed' direct also member member'
    have kept := ((mem_direct whole key pid direct).mp member).2
    have kept' := ((mem_direct whole key pid also).mp member').2
    exact direct_norm_unique kept kept'

def plainService : NameRegistry := NameRegistry.new.register "/svc/one" 7

theorem direct_parent_iff_service : ∃ path listed,
    plainService.listDirectChildren ["/svc/one"] path = some listed ∧ ("/svc/one", 7) ∈ listed := by
  have key : "/svc/one".toList = ['/', 's', 'v', 'c', '/', 'o', 'n', 'e'] := by decide +kernel
  have plain : ¬ EmptyParent "/svc/one".toList := by
    rintro ⟨front, tail, split, last⟩
    have split' : "/svc/one".toList = ['/', 's', 'v', 'c'] ++ '/' :: ['o', 'n', 'e'] := key
    have grouped : (front ++ ['/']) ++ '/' :: tail = ['/', 's', 'v', 'c'] ++ '/' :: ['o', 'n', 'e'] := by
      rw [← split', split]
      simp
    have parent := congrArg List.getLast? (last_slash_unique grouped last (by decide)).1
    simp at parent
  have whole : ["/svc/one"].Perm plainService.names.keys := .refl _
  have registered : plainService.resolve "/svc/one" = some 7 := rfl
  obtain ⟨path, listed, direct, member, -⟩ := (direct_parent_iff plainService whole registered).1.mpr plain
  exact ⟨path, listed, direct, member⟩

/-- No path lists `a//b` directly: its parent would end in a slash. -/
theorem double_slash_unlisted :
    ¬ ∀ (registry : NameRegistry) (order : List String) (key : String) (pid : Pid),
      order.Perm registry.names.keys → registry.resolve key = some pid →
      ∃ path listed, registry.listDirectChildren order path = some listed ∧ (key, pid) ∈ listed := by
  intro reached
  have whole : ["a//b"].Perm (NameRegistry.new.register "a//b" 7).names.keys := .refl _
  obtain ⟨path, listed, direct, member⟩ := reached _ _ "a//b" 7 whole rfl
  have kept := ((mem_direct whole "a//b" 7 direct).mp member).2
  have key : "a//b".toList = ['a'] ++ '/' :: '/' :: ['b'] := by decide +kernel
  exact not_direct_of_emptyParent trimEndSlashes_last ⟨['a'], ['b'], key, by decide⟩ kept

end NameRegistry

end Myrmidon
