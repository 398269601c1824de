import L1Chain.Core

/-! Package state: the `StateDB` interface and its production implementation.
`CodeHash` and `StorageRoot` are content addresses; an account here carries the
contents they stand for, and an absent account is the zero account, exactly as
`mptStateDB.SetAccount` deletes what `isEmpty` accepts. The tries are thus the
finite maps they implement, and a state root is a function of that map. -/
namespace L1Chain

@[ext] structure Account where
  balance : UInt64
  nonce : UInt64
  code : Bytes
  storage : Hash → Hash

def Account.zero : Account := ⟨0,0,[],fun _ => 0⟩

class StateDB (S : Type) where
  getAccount : S → Address → Account
  setAccount : S → Address → Account → S
  getCode : S → Address → Bytes
  setCode : S → Address → Bytes → S
  getStorage : S → Address → Hash → Hash
  setStorage : S → Address → Hash → Hash → S

export StateDB (getAccount setAccount getCode setCode getStorage setStorage)

/- Writing a storage word rewrites the root inside the account leaf, so it goes
through the account like every other mutation. -/
structure MptState where
  accounts : Address → Account

namespace MptState

def empty : MptState := ⟨fun _ => Account.zero⟩

def put (s : MptState) (a : Address) (acct : Account) : MptState :=
  ⟨fun x => if x = a then acct else s.accounts x⟩

instance : StateDB MptState where
  getAccount s a := s.accounts a
  setAccount s a acct := s.put a acct
  getCode s a := (s.accounts a).code
  setCode s a code := s.put a {s.accounts a with code := code}
  getStorage s a key := (s.accounts a).storage key
  setStorage s a key val :=
    s.put a {s.accounts a with storage := fun k => if k = key then val else (s.accounts a).storage k}

variable (s : MptState) (a b : Address)

@[simp] theorem getAccountEq : getAccount s a = s.accounts a := rfl
@[simp] theorem getCodeEq : getCode s a = (s.accounts a).code := rfl
@[simp] theorem getStorageEq (key : Hash) : getStorage s a key = (s.accounts a).storage key := rfl

@[simp] theorem setAccountAt (acct : Account) :
    (setAccount s a acct).accounts b = if b = a then acct else s.accounts b := rfl

@[simp] theorem setCodeAt (code : Bytes) :
    (setCode s a code).accounts b = if b = a then {s.accounts a with code := code} else s.accounts b := rfl

@[simp] theorem setStorageAt (key val : Hash) :
    (setStorage s a key val).accounts b = if b = a then
      {s.accounts a with storage := fun k => if k = key then val else (s.accounts a).storage k}
      else s.accounts b := rfl

theorem putKeeps {β : Type} {s : MptState} {a b : Address} {acct : Account} (f : Account → β)
    (same : f acct = f (s.accounts a)) : f ((s.put a acct).accounts b) = f (s.accounts b) := by
  have written : (s.put a acct).accounts b = if b = a then acct else s.accounts b := rfl
  rw [written]
  split
  · rename_i own
    rw [same,own]
  · rfl

@[ext] theorem ext' {s t : MptState} (same : ∀ a, s.accounts a = t.accounts a) : s = t := by
  cases s; cases t
  exact congrArg MptState.mk (funext same)

end MptState
end L1Chain
