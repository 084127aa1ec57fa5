import Chessh.Client.Chess
import Chessh.Verif.Length
import Chessh.Verif.Result
import Chessh.Verif.Atomicity
import Chessh.Verif.Reload
import Chessh.Client.Runner
import Chessh.Verif.Replicas
import Chessh.Verif.Flight
import Chessh.Verif.Mirror
import Chessh.Verif.Passing
import Chessh.Verif.Bounds
import Chessh.Verif.Access
import Chessh.Verif.Session
import Chessh.Verif.Frame
import Chessh.Verif.Encoding
import Chessh.Verif.Pairing
import Chessh.Verif.Registry
import Chessh.Verif.Strings
import Chessh.Verif.Queries
import Chessh.Verif.Coordinates
import Chessh.Verif.Division
import Chessh.Verif.Copyfd
import Chessh.Verif.Rejection
import Chessh.Verif.Enumeration
import Chessh.Verif.Tally
import Chessh.Verif.Referee
import Chessh.Verif.Ending
import Chessh.Verif.Broadcast
import Chessh.Verif.Seats
import Chessh.Verif.Queue
import Chessh.Daemon.Main
import Chessh.Verif.Admission
import Chessh.Verif.Material
import Chessh.Verif.Listener
import Chessh.Verif.Sessions
import Chessh.Verif.Conversation
import Chessh.Verif.Symmetry
