import ElasticTree.History.Query

/-!
# The same history with other keys

A history may be carried out again with its keys written down in another way.
What was asked for is then asked for in the new writing, and wherever a caller
gets a key to see, it should be the one seen before, in the new writing.
-/

namespace ElasticTree

variable {K K' V L L' : Type}

/-- The request for another writing of keys and another kind of insertion. -/
def Request.recode (encode : K → K') (told : L → L') : Request K V L → Request K' V L'
  | alloc key value => alloc (encode key) value
  | insert id how => insert id (told how)
  | unlink id => unlink id
  | free id => free id
  | remove id => remove id
  | clear => clear
  | setValue id value => setValue id value

/-- The reply with the key written in another way. -/
def Reply.recode (encode : K → K') : Reply K V → Reply K' V
  | made id => made id
  | inserted answer => inserted answer
  | unlinked answer => unlinked answer
  | released answer => released (answer.map fun stored => (encode stored.1, stored.2))
  | done => done

/-- The entry with the key written in another way. -/
def Entry.recode (encode : K → K') (entry : Entry K V) : Entry K' V :=
  ⟨entry.id, encode entry.key, entry.value⟩

/-- The answer with all keys written in another way. -/
def Answer.recode (encode : K → K') : Answer K V → Answer K' V
  | found id => found id
  | stepped answer => stepped answer
  | listed entries => listed (entries.map (Entry.recode encode))
  | counted number => counted number
  | figures values duplicates detached => figures values duplicates detached

end ElasticTree
