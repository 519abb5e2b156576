import Myrmidon.Data.Segments
import Myrmidon.Registry.Model

namespace Myrmidon

open Data

/-- `len` of a string: its bytes in UTF-8. -/
def byteLen (chars : List Char) : Nat := (chars.map Char.utf8Size).sum

/-- `&s[n..]`: `none` is the panic of a slice that is out of range or inside a character. -/
def sliceFrom : List Char → Nat → Option (List Char)
  | chars, 0 => some chars
  | [], _ + 1 => none
  | char :: chars, n + 1 => if char.utf8Size ≤ n + 1 then sliceFrom chars (n + 1 - char.utf8Size) else none

def trimEndSlashes (chars : List Char) : List Char := chars.rdropWhile (· = '/')

namespace NameRegistry

/-- The entries, in the order in which the map is iterated. -/
def iter (registry : NameRegistry) (order : List String) : List (String × Pid) :=
  order.filterMap fun key => (registry.names.lookup key).map fun pid => (key, pid)

def norm (path : List Char) : List Char :=
  if path = [] ∨ path = ['/'] then []
  else if path.getLast? = some '/' then trimEndSlashes path
  else path

def listChildren (registry : NameRegistry) (order : List String) (path : String) : List (String × Pid) :=
  let matcher := if norm path.toList = [] then none else some (norm path.toList ++ ['/'])
  (registry.iter order).filter fun entry =>
    match matcher with
    | some m => m.isPrefixOf entry.1.toList
    | none => true

/-- Whether the loop of `list_direct_children` keeps the key. -/
def keepsDirect (matcher key : List Char) : Option Bool :=
  if matcher ≠ [] then
    if !matcher.isPrefixOf key then some false
    else (sliceFrom key (byteLen matcher)).map fun tail => !tail.contains '/'
  else
    (if key.head? = some '/' then sliceFrom key 1 else some key).map fun tail => !tail.contains '/'

/-- A loop that keeps what passes the test; a panic of the test is one of the loop. -/
def retained (test : String → Option Bool) : List (String × Pid) → Option (List (String × Pid))
  | [] => some []
  | entry :: rest =>
    match test entry.1 with
    | none => none
    | some true => (retained test rest).map (entry :: ·)
    | some false => retained test rest

def listDirectChildren (registry : NameRegistry) (order : List String) (path : String) : Option (List (String × Pid)) :=
  let matcher := if norm path.toList = [] then [] else norm path.toList ++ ['/']
  retained (fun key => keepsDirect matcher key.toList) (registry.iter order)

end NameRegistry

theorem sliceFrom_append (front tail : List Char) : sliceFrom (front ++ tail) (byteLen front) = some tail := by
  induction front with
  | nil =>
    cases tail <;> rfl
  | cons char front ih =>
    have wide := Char.utf8Size_pos char
    have size : byteLen (char :: front) = char.utf8Size + byteLen front := rfl
    obtain ⟨n, split⟩ : ∃ n, byteLen (char :: front) = n + 1 := ⟨byteLen (char :: front) - 1, by omega⟩
    rw [split, List.cons_append, sliceFrom, if_pos (by omega)]
    have left : n + 1 - char.utf8Size = byteLen front := by omega
    rw [left]
    exact ih

namespace NameRegistry

theorem norm_eq (path : List Char) : norm path = trimEndSlashes path := by
  unfold norm
  split
  · rename_i short
    rcases short with rfl | rfl
    · rfl
    · simp [trimEndSlashes, List.rdropWhile]
  · split
    · rfl
    · rename_i last
      symm
      rw [trimEndSlashes, List.rdropWhile_eq_self_iff]
      intro nonempty slash
      apply last
      rw [List.getLast?_eq_some_getLast nonempty]
      exact congrArg some (of_decide_eq_true slash)

theorem retained_eq {test : String → Option Bool} (keeps : String → Bool) {entries : List (String × Pid)}
    (total : ∀ key, test key = some (keeps key)) :
    retained test entries = some (entries.filter fun entry => keeps entry.1) := by
  induction entries with
  | nil => rfl
  | cons entry rest ih =>
    rw [retained, total entry.1, List.filter_cons]
    cases keeps entry.1 with
    | true => simp [ih]
    | false => simp [ih]

/-- The key without its leading slash, if it has one. -/
def dropSlash (key : List Char) : List Char := if key.head? = some '/' then key.tail else key

/-- What the test of the direct listing comes to, its slices being in range. -/
def direct (norm key : List Char) : Bool :=
  if norm = [] then !(dropSlash key).contains '/'
  else (norm ++ ['/']).isPrefixOf key && !(key.drop (norm.length + 1)).contains '/'

theorem startsWith_iff (norm key : List Char) :
    (norm ++ ['/']).isPrefixOf key = true ↔ ∃ tail, key = norm ++ '/' :: tail := by
  rw [List.isPrefixOf_iff_prefix]
  constructor
  · rintro ⟨tail, rfl⟩
    exact ⟨tail, by simp⟩
  · rintro ⟨tail, rfl⟩
    exact ⟨tail, by simp⟩

theorem drop_after_slash (norm tail : List Char) : (norm ++ '/' :: tail).drop (norm.length + 1) = tail := by
  rw [List.drop_append]
  simp

theorem keepsDirect_eq (norm key : List Char) :
    keepsDirect (if norm = [] then [] else norm ++ ['/']) key = some (direct norm key) := by
  by_cases root : norm = []
  · rw [if_pos root, keepsDirect, direct, if_pos root, if_neg (not_not_intro rfl), dropSlash]
    by_cases slash : key.head? = some '/'
    · obtain ⟨tail, rfl⟩ := List.head?_eq_some_iff.mp slash
      have sliced : sliceFrom ('/' :: tail) 1 = some tail := sliceFrom_append ['/'] tail
      rw [if_pos slash, if_pos slash, sliced]
      rfl
    · rw [if_neg slash, if_neg slash]
      rfl
  · rw [if_neg root, keepsDirect, direct, if_neg root, if_pos (by simp)]
    by_cases starts : (norm ++ ['/']).isPrefixOf key = true
    · obtain ⟨tail, rfl⟩ := (startsWith_iff norm key).mp starts
      have split : norm ++ '/' :: tail = (norm ++ ['/']) ++ tail := by simp
      have sliced : sliceFrom (norm ++ '/' :: tail) (byteLen (norm ++ ['/'])) = some tail := by
        rw [split]
        exact sliceFrom_append (norm ++ ['/']) tail
      rw [starts, sliced, drop_after_slash]
      rfl
    · rw [Bool.not_eq_true] at starts
      rw [starts]
      rfl

theorem direct_iff {norm key : List Char} (nonempty : norm ≠ []) :
    direct norm key = true ↔ ∃ tail, key = norm ++ '/' :: tail ∧ '/' ∉ tail := by
  rw [direct, if_neg nonempty, Bool.and_eq_true, startsWith_iff]
  constructor
  · rintro ⟨⟨tail, rfl⟩, last⟩
    rw [drop_after_slash] at last
    exact ⟨tail, rfl, by simpa using last⟩
  · rintro ⟨tail, rfl, last⟩
    refine ⟨⟨tail, rfl⟩, ?_⟩
    rw [drop_after_slash]
    simpa using last

theorem direct_root_iff (key : List Char) : direct [] key = true ↔ '/' ∉ dropSlash key := by
  simp [direct]

theorem mem_iter (registry : NameRegistry) {order : List String} (whole : order.Perm registry.names.keys) (key : String)
    (pid : Pid) : (key, pid) ∈ registry.iter order ↔ registry.resolve key = some pid := by
  rw [iter, List.mem_filterMap, resolve]
  constructor
  · rintro ⟨other, -, found⟩
    obtain ⟨value, present, same⟩ := Option.map_eq_some_iff.mp found
    cases same
    exact present
  · intro present
    have known : key ∈ registry.names := AList.lookup_isSome.mp (by rw [present]; rfl)
    exact ⟨key, whole.mem_iff.mpr known, by rw [present, Option.map_some]⟩

theorem iter_keys (registry : NameRegistry) {order : List String} (whole : order.Perm registry.names.keys) :
    (registry.iter order).map Prod.fst = order := by
  have present : ∀ key ∈ order, ∃ pid, registry.names.lookup key = some pid := by
    intro key member
    have known : key ∈ registry.names := whole.mem_iff.mp member
    rw [← AList.lookup_isSome] at known
    exact Option.isSome_iff_exists.mp known
  clear whole
  induction order with
  | nil => rfl
  | cons key order ih =>
    obtain ⟨pid, found⟩ := present key List.mem_cons_self
    have rest := ih fun other member => present other (List.mem_cons_of_mem key member)
    rw [iter, List.filterMap_cons_some (b := (key, pid)) (by rw [found, Option.map_some]), List.map_cons]
    exact congrArg (key :: ·) rest

theorem listChildren_eq (registry : NameRegistry) (order : List String) (path : String) :
    registry.listChildren order path = (registry.iter order).filter fun entry =>
      (trimEndSlashes path.toList).isEmpty || (trimEndSlashes path.toList ++ ['/']).isPrefixOf entry.1.toList := by
  rw [listChildren, norm_eq]
  apply List.filter_congr
  intro entry _
  by_cases root : trimEndSlashes path.toList = []
  · simp [root]
  · simp [root]

theorem listDirectChildren_eq (registry : NameRegistry) (order : List String) (path : String) :
    registry.listDirectChildren order path =
      some ((registry.iter order).filter fun entry => direct (trimEndSlashes path.toList) entry.1.toList) := by
  rw [listDirectChildren, norm_eq]
  exact retained_eq (fun key => direct (trimEndSlashes path.toList) key.toList)
    fun key => keepsDirect_eq (trimEndSlashes path.toList) key.toList

section

variable {registry : NameRegistry} {order : List String} (whole : order.Perm registry.names.keys) {path : String}
  (key : String) (pid : Pid)

include whole

theorem mem_listChildren (nonempty : trimEndSlashes path.toList ≠ []) :
    (key, pid) ∈ registry.listChildren order path ↔ registry.resolve key = some pid ∧
      ProperPart ((trimEndSlashes path.toList).splitOn '/') (key.toList.splitOn '/') := by
  rw [listChildren_eq, List.mem_filter, mem_iter registry whole, properPart_splitOn_iff, ← startsWith_iff]
  simp [nonempty]

theorem mem_listChildren_root (root : trimEndSlashes path.toList = []) :
    (key, pid) ∈ registry.listChildren order path ↔ registry.resolve key = some pid := by
  rw [listChildren_eq, List.mem_filter, mem_iter registry whole]
  simp [root]

variable {listed : List (String × Pid)} (direct : registry.listDirectChildren order path = some listed)

include direct

theorem mem_direct : (key, pid) ∈ listed ↔ registry.resolve key = some pid ∧
    NameRegistry.direct (trimEndSlashes path.toList) key.toList = true := by
  rw [listDirectChildren_eq] at direct
  cases direct
  rw [List.mem_filter, mem_iter registry whole]

theorem mem_listDirectChildren (nonempty : trimEndSlashes path.toList ≠ []) :
    (key, pid) ∈ listed ↔ registry.resolve key = some pid ∧
      ProperPart ((trimEndSlashes path.toList).splitOn '/') (key.toList.splitOn '/') ∧
      (key.toList.splitOn '/').length = ((trimEndSlashes path.toList).splitOn '/').length + 1 := by
  rw [mem_direct whole key pid direct, direct_iff nonempty, properPart_splitOn_iff]
  constructor
  · rintro ⟨found, tail, split, last⟩
    refine ⟨found, ⟨tail, split⟩, ?_⟩
    rw [split, length_splitOn_succ_iff]
    exact last
  · rintro ⟨found, ⟨tail, split⟩, one⟩
    rw [split, length_splitOn_succ_iff] at one
    exact ⟨found, tail, split, one⟩

theorem direct_subset : listed ⊆ registry.listChildren order path := by
  rintro ⟨key, pid⟩ member
  by_cases root : trimEndSlashes path.toList = []
  · rw [mem_listChildren_root whole key pid root]
    exact ((mem_direct whole key pid direct).mp member).1
  · rw [mem_listChildren whole key pid root]
    obtain ⟨found, below, -⟩ := (mem_listDirectChildren whole key pid direct root).mp member
    exact ⟨found, below⟩

end

theorem listChildren_subset {registry : NameRegistry} {order : List String}
    (whole : order.Perm registry.names.keys) {path other : String}
    (below : trimEndSlashes path.toList = [] ∨
      (trimEndSlashes path.toList).splitOn '/' <+: (trimEndSlashes other.toList).splitOn '/') :
    registry.listChildren order other ⊆ registry.listChildren order path := by
  rintro ⟨key, pid⟩ member
  by_cases root : trimEndSlashes path.toList = []
  · rw [mem_listChildren_root whole key pid root]
    rw [listChildren_eq, List.mem_filter, mem_iter registry whole] at member
    exact member.1
  · have segments := below.resolve_left root
    have deeper : trimEndSlashes other.toList ≠ [] := by
      intro empty
      rw [empty, List.splitOn_nil] at segments
      obtain ⟨rest, split⟩ := segments
      rcases List.append_eq_singleton_iff.mp split with ⟨none, -⟩ | ⟨one, -⟩
      · exact List.splitOn_ne_nil '/' _ none
      · have joined : ['/'].intercalate ((trimEndSlashes path.toList).splitOn '/') = trimEndSlashes path.toList :=
          List.intercalate_splitOn '/'
        rw [one, List.intercalate_singleton] at joined
        exact root joined.symm
    rw [mem_listChildren whole key pid deeper] at member
    rw [mem_listChildren whole key pid root]
    exact ⟨member.1, .trans_left segments member.2⟩

theorem trimEndSlashes_append (path : String) (count : Nat) :
    trimEndSlashes (path ++ String.ofList (List.replicate count '/')).toList = trimEndSlashes path.toList := by
  rw [String.toList_append, String.toList_ofList]
  exact rdropWhile_append_replicate '/' path.toList count

/-- The listings by segments: below a path, directly below it, and at the root. -/
theorem listing_by_segments (registry : NameRegistry) {order : List String} (whole : order.Perm registry.names.keys)
    (path : String) : ∃ listed, registry.listDirectChildren order path = some listed ∧
      (trimEndSlashes path.toList ≠ [] → ∀ key pid,
        ((key, pid) ∈ registry.listChildren order path ↔ registry.resolve key = some pid ∧
          ProperPart ((trimEndSlashes path.toList).splitOn '/') (key.toList.splitOn '/')) ∧
        ((key, pid) ∈ listed ↔ registry.resolve key = some pid ∧
          ProperPart ((trimEndSlashes path.toList).splitOn '/') (key.toList.splitOn '/') ∧
          (key.toList.splitOn '/').length = ((trimEndSlashes path.toList).splitOn '/').length + 1)) ∧
      (trimEndSlashes path.toList = [] → ∀ key pid,
        ((key, pid) ∈ registry.listChildren order path ↔ registry.resolve key = some pid) ∧
        ((key, pid) ∈ listed ↔ registry.resolve key = some pid ∧ '/' ∉ dropSlash key.toList)) ∧
      ((registry.listChildren order path).map Prod.fst).Nodup ∧ (listed.map Prod.fst).Nodup ∧
      listed ⊆ registry.listChildren order path ∧
      (∀ count, registry.listChildren order (path ++ String.ofList (List.replicate count '/')) =
          registry.listChildren order path ∧
        registry.listDirectChildren order (path ++ String.ofList (List.replicate count '/')) = some listed) ∧
      ∀ other : String, (trimEndSlashes path.toList = [] ∨
          (trimEndSlashes path.toList).splitOn '/' <+: (trimEndSlashes other.toList).splitOn '/') →
        registry.listChildren order other ⊆ registry.listChildren order path := by
  have direct := listDirectChildren_eq registry order path
  have once : ((registry.iter order).map Prod.fst).Nodup := by
    rw [iter_keys registry whole]
    exact whole.nodup_iff.mpr registry.names.nodupKeys
  refine ⟨_, direct, ?_, ?_, ?_, ?_, direct_subset whole direct, ?_, ?_⟩
  · intro nonempty key pid
    exact ⟨mem_listChildren whole key pid nonempty, mem_listDirectChildren whole key pid direct nonempty⟩
  · intro root key pid
    have listed := mem_direct whole key pid direct
    rw [root, direct_root_iff] at listed
    rw [root]
    exact ⟨mem_listChildren_root whole key pid root, listed⟩
  · rw [listChildren_eq]
    exact once.sublist (List.filter_sublist.map Prod.fst)
  · exact once.sublist (List.filter_sublist.map Prod.fst)
  · intro count
    rw [listChildren_eq, listChildren_eq, listDirectChildren_eq, trimEndSlashes_append]
    exact ⟨rfl, rfl⟩
  · intro other below
    exact listChildren_subset whole below

def oneService : NameRegistry := NameRegistry.new.register "/svc/één" 7

theorem listing_by_segments_service : ∃ listed,
    oneService.listDirectChildren ["/svc/één"] "/svc" = some listed ∧ ("/svc/één", 7) ∈ listed ∧
      listed ⊆ oneService.listChildren ["/svc/één"] "/svc" := by
  have whole : ["/svc/één"].Perm oneService.names.keys := .refl _
  have path : trimEndSlashes "/svc".toList = ['/', 's', 'v', 'c'] := by decide +kernel
  have key : "/svc/één".toList = ['/', 's', 'v', 'c', '/', 'é', 'é', 'n'] := by decide +kernel
  obtain ⟨listed, direct, below, -, -, -, subset, -⟩ := listing_by_segments oneService whole "/svc"
  have nonempty : trimEndSlashes "/svc".toList ≠ [] := by
    rw [path]
    exact List.cons_ne_nil _ _
  refine ⟨listed, direct, (below nonempty "/svc/één" 7).2.mpr ?_, subset⟩
  rw [path, key]
  exact ⟨rfl, ⟨[['é', 'é', 'n']], by simp, rfl⟩, rfl⟩

end NameRegistry

end Myrmidon
