import Fs5600.Naming
import Fs5600.Statfs
import Fs5600.Resolve
import Fs5600.Observe
import Fs5600.Overwrite
import Fs5600.Unlinked
import Fs5600.Rmdir
import Fs5600.Making
import Fs5600.Creation
import Fs5600.Renaming
import Fs5600.Stamps
import Fs5600.Accounting
import Fs5600.Contents
import Fs5600.RoundTrip
import Fs5600.WholePath
import Fs5600.TwoWalks
import Fs5600.ParentStack
import Fs5600.LastName
import Fs5600.Reading
import Fs5600.LookupErrors
import Fs5600.Listing
import Fs5600.PointerIndex
import Fs5600.Generated
import Fs5600.Resolution
import Fs5600.Scans
import Fs5600.ParentPaths
import Fs5600.CheckedRuns
import Fs5600.Recovery
import Fs5600.Described
import Fs5600.Parsed
