import ElasticTree.Arena.History
import ElasticTree.Arena.Lemmas
import ElasticTree.Bits.Padding
import ElasticTree.Bits.Scanning
import ElasticTree.Bits.Shifting
import ElasticTree.ByteTree.Afresh
import ElasticTree.ByteTree.Inspection
import ElasticTree.ByteTree.Search
import ElasticTree.History.Arrivals
import ElasticTree.History.Ledger
import ElasticTree.History.Multimap
import ElasticTree.History.Query
import ElasticTree.History.Recoding
import ElasticTree.History.Request
import ElasticTree.Shape.Unfolding
import ElasticTree.Tree.Dealing
import ElasticTree.Tree.Paths
import ElasticTree.Tree.Statistics
import ElasticTree.Tree.Stepping
import ElasticTree.WordTree.Inspection
import ElasticTree.WordTree.Search
import ElasticTree.Proofs.Agreement
import ElasticTree.Proofs.Arena.History
import ElasticTree.Proofs.Bits.Comparing
import ElasticTree.Proofs.Bits.Scanning
import ElasticTree.Proofs.ByteTree.Afresh
import ElasticTree.Proofs.ByteTree.Answering
import ElasticTree.Proofs.ByteTree.History
import ElasticTree.Proofs.History.Arrivals
import ElasticTree.Proofs.History.Churning
import ElasticTree.Proofs.History.Figures
import ElasticTree.Proofs.History.Growing
import ElasticTree.Proofs.History.Neighbourhood
import ElasticTree.Proofs.History.Outline
import ElasticTree.Proofs.History.Overlong
import ElasticTree.Proofs.History.Owners
import ElasticTree.Proofs.History.Refusing
import ElasticTree.Proofs.History.Safety
import ElasticTree.Proofs.History.Searching
import ElasticTree.Proofs.History.Soundness
import ElasticTree.Proofs.History.Stepping
import ElasticTree.Proofs.History.Undoing
import ElasticTree.Proofs.Inspected
import ElasticTree.Proofs.Ring.Partition
import ElasticTree.Proofs.Tree.Completion
import ElasticTree.Proofs.Tree.Dealing
import ElasticTree.Proofs.Tree.KeySteps
import ElasticTree.Proofs.Tree.Recognition
import ElasticTree.Proofs.Tree.Stepping
import ElasticTree.Proofs.WordTree.History
import ElasticTree.Proofs.WordTree.Range
