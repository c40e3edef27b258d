import CallTrace.Alias

/-!
# Groupings

A grouping says how a walk treats the aliases of a call site: which of the calls that leave a
method it follows, and under which name it shows a group. `Grouping.byAlias` follows one call for
each group; `Grouping.keepAll` follows every call.
-/

namespace CallTrace

/-- What becomes of a call in the scan of the calls that leave a method. -/
inductive Pick
  | follow (c : Call)
  | merge (c : Call)
deriving DecidableEq

namespace Pick

def call : Pick → Call
  | .follow c => c
  | .merge c => c

def followed? : Pick → Option Call
  | .follow c => some c
  | .merge _ => none

def mergeLog (c : Call) : Log := .callMerged (.ofCall c) c.callee

/-- A merged call is reported. -/
def log? : Pick → Option Log
  | .follow _ => none
  | .merge c => some (mergeLog c)

def followed (ps : List Pick) : List Call := ps.filterMap followed?

end Pick

structure Grouping where
  display : NameSet → String
  picks : ClassFilter → AliasMap → List Call → List Pick
  picks_sublist : ∀ f a cs, ((picks f a cs).map Pick.call).Sublist cs

namespace Grouping

def separator : String := ":"

/-- The members of a group in increasing order, joined. -/
def joined (ns : NameSet) : String := separator.intercalate ns.names

/-- The scan with the sites whose group already has a followed call. -/
def scan (f : ClassFilter) (a : AliasMap) : List CallSite → List Call → List Pick
  | _, [] => []
  | seen, c :: cs =>
    let s := CallSite.ofCall c
    if ¬ f.Follows c.callee.owner then scan f a seen cs
    else if c.callee.owner ∉ a.group s then .follow c :: scan f a seen cs
    else if s ∈ seen then .merge c :: scan f a seen cs
    else .follow c :: scan f a (s :: seen) cs

theorem scan_sublist (f : ClassFilter) (a : AliasMap) (seen : List CallSite) (cs : List Call) :
    ((scan f a seen cs).map Pick.call).Sublist cs := by
  fun_induction scan f a seen cs with
  | case1 => exact List.Sublist.slnil
  | case2 _ c _ _ ih => exact ih.cons c
  | case3 _ c _ _ _ _ ih => exact ih.cons_cons c
  | case4 _ c _ _ _ _ _ ih => exact ih.cons_cons c
  | case5 _ c _ _ _ _ _ ih => exact ih.cons_cons c

def byAlias : Grouping where
  display := joined
  picks f a cs := scan f a [] cs
  picks_sublist f a cs := scan_sublist f a [] cs

def followAll (cs : List Call) : List Pick := cs.map .follow

theorem followAll_sublist (cs : List Call) : ((followAll cs).map Pick.call).Sublist cs := by
  simp [followAll, Function.comp_def, Pick.call]

/-- Follows every call and shows groups as `byAlias` does. -/
def keepAll : Grouping where
  display := joined
  picks _ _ cs := followAll cs
  picks_sublist _ _ cs := followAll_sublist cs

/-- Follows every call and shows one name for every group. -/
def fixed (name : String) : Grouping where
  display _ := name
  picks _ _ cs := followAll cs
  picks_sublist _ _ cs := followAll_sublist cs

@[simp] theorem followed_followAll (cs : List Call) : Pick.followed (followAll cs) = cs := by
  simp [Pick.followed, followAll, Function.comp_def, Pick.followed?]

end Grouping

end CallTrace
