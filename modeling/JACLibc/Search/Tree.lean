import JACLibc.CString
import JACLibc.Lib.Run

/-!
# The binary search tree of `search.h`

`tfind`, `tsearch` and `tdelete` on one root.  A node carries its address, so that what the functions return can be
told apart from other nodes with the same key.  The C loops walk a pointer to the link to follow; the recursions
below rebuild the links they pass, which leaves every node not written to as it was.

`compar(key, node->key)` is the comparator of the caller; `rootp` and `compar` are not NULL.
-/

namespace JACLibc

/-- A link to a `__jacl_tnode`: NULL, or a node with its address, key and two links. -/
inductive TNode (K : Type*) where
  | null
  | node (addr : Nat) (key : K) (left right : TNode K)
  deriving DecidableEq, Repr

variable {K : Type*}

/-- The pointer a link holds. -/
def TNode.ptr : TNode K → Option Nat
  | null => none
  | node a _ _ _ => some a

/-- `__jacl_t_new`; `malloced` is what `malloc` returned. -/
def tNew (malloced : Option Nat) (key : K) : TNode K :=
  match malloced with
  | some a => .node a key .null .null
  | none => .null

/-- The loop shared by the three functions: the node at which `compar` answers zero, or NULL. -/
def tWalk (compar : K → K → Int) (key : K) : TNode K → TNode K
  | .null => .null
  | .node a k l r =>
    if compar key k = 0 then .node a k l r
    else if compar key k < 0 then tWalk compar key l
    else tWalk compar key r

def tfind (compar : K → K → Int) (key : K) (root : TNode K) : Except Errno (Option Nat) :=
  match root with
  | .null => .error .EINVAL
  | _ => .ok (tWalk compar key root).ptr

/-- The tree after `tsearch`: a missing key gets a new node at the link where the walk ends. -/
def tInsert (compar : K → K → Int) (malloced : Option Nat) (key : K) : TNode K → TNode K
  | .null => tNew malloced key
  | .node a k l r =>
    if compar key k = 0 then .node a k l r
    else if compar key k < 0 then .node a k (tInsert compar malloced key l) r
    else .node a k l (tInsert compar malloced key r)

def tsearch (compar : K → K → Int) (malloced : Option Nat) (key : K) (root : TNode K) :
    Except Errno (Option Nat) × TNode K :=
  match tWalk compar key root with
  | .null => (.ok malloced, tInsert compar malloced key root)
  | .node a _ _ _ => (.ok (some a), root)

/-- The key of the in-order successor: `while ((*succ_p)->left) succ_p = &(*succ_p)->left`, from a non-NULL link. -/
def succKey (key : K) : TNode K → K
  | .null => key
  | .node _ k .null _ => k
  | .node _ _ (.node a k l r) _ => succKey key (.node a k l r)

/-- `*succ_p = succ->right` -/
def unlinkSucc : TNode K → TNode K
  | .null => .null
  | .node _ _ .null r => r
  | .node a k (.node a' k' l' r') r => .node a k (unlinkSucc (.node a' k' l' r')) r

/-- What replaces the link to the node found by `tdelete`. -/
def tUnlink : TNode K → TNode K
  | .null => .null
  | .node a k l r =>
    match l, r with
    -- two children: the node stays and takes the key of its successor, which is unlinked
    | .node .., .node .. => .node a (succKey k r) l (unlinkSucc r)
    -- `node->left ? node->left : node->right`
    | .node .., .null => l
    | .null, _ => r

/-- The tree after `tdelete`. -/
def tRemove (compar : K → K → Int) (key : K) : TNode K → TNode K
  | .null => .null
  | .node a k l r =>
    if compar key k = 0 then tUnlink (.node a k l r)
    else if compar key k < 0 then .node a k (tRemove compar key l) r
    else .node a k l (tRemove compar key r)

/-- `tdelete` returns the new root. -/
def tdelete (compar : K → K → Int) (key : K) (root : TNode K) : Except Errno (Option Nat) × TNode K :=
  match root with
  | .null => (.error .EINVAL, root)
  | _ =>
    match tWalk compar key root with
    | .null => (.ok none, root)
    | .node .. => (.ok (tRemove compar key root).ptr, tRemove compar key root)

/-- One call on the tree; `tsearch` comes with the outcome of its allocation. -/
inductive TCall (K : Type*) where
  | tsearch (malloced : Option Nat) (key : K)
  | tfind (key : K)
  | tdelete (key : K)

def tstep (compar : K → K → Int) (root : TNode K) : TCall K → Except Errno (Option Nat) × TNode K
  | .tsearch m key => tsearch compar m key root
  | .tfind key => (tfind compar key root, root)
  | .tdelete key => tdelete compar key root

end JACLibc
