import TreeMachine.Main
import TreeMachine.Proofs.Accesses
import TreeMachine.Proofs.Addresses
import TreeMachine.Proofs.Canonical
import TreeMachine.Proofs.Debounced
import TreeMachine.Proofs.DirectoryCounts
import TreeMachine.Proofs.Equivalence
import TreeMachine.Proofs.InsertedCalls
import TreeMachine.Proofs.KeptValues
import TreeMachine.Proofs.Loading
import TreeMachine.Proofs.LoweredLabels
import TreeMachine.Proofs.LoweredMoves
import TreeMachine.Proofs.Placement
import TreeMachine.Proofs.Polled
import TreeMachine.Proofs.Printed
import TreeMachine.Proofs.SavedConfigs
import TreeMachine.Proofs.ShortCircuit
import TreeMachine.Proofs.Shrinking
import TreeMachine.Proofs.Strings
import TreeMachine.Proofs.Trials
import TreeMachine.Proofs.TypeTexts
import TreeMachine.Proofs.TypedCalls
import TreeMachine.Testing.Assertion
import TreeMachine.Watch.Disk
