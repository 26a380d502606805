import TripletSat.CommandLine.Surroundings
import TripletSat.Main
import TripletSat.Random.Instance
import TripletSat.Proofs.Hyper.Certificates
import TripletSat.Proofs.Partition
import TripletSat.Proofs.Hyper.Mirror
import TripletSat.Proofs.Renaming.Solver
import TripletSat.Proofs.CommandLine.Run
import TripletSat.Proofs.Lattice
import TripletSat.Proofs.Dimacs.Grammar
import TripletSat.Proofs.Growth
import TripletSat.Proofs.Dimacs.Checks
import TripletSat.Proofs.Dimacs.Printing
import TripletSat.Proofs.Exchange
import TripletSat.Proofs.Dimacs.Agreement
import TripletSat.Proofs.Seeding
import TripletSat.Proofs.Hyper.Leaves
import TripletSat.Proofs.Tables.Lookups
import TripletSat.Proofs.Solutions
import TripletSat.Proofs.Restriction
import TripletSat.Proofs.Readout
import TripletSat.Proofs.Exchange.Format
import TripletSat.Proofs.LetterNames
import TripletSat.Proofs.Random.Formula
